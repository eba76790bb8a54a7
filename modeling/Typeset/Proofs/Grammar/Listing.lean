import Mathlib.Data.List.Basic
import Typeset.Proofs.Grammar.Soundness

/-!
# All parses as lists

Where no rule is empty, every part that is read consumes a symbol. Room for
the symbols of the input then suffices: the search comes to its end, whatever
typecodes are active, and more room changes nothing. What it finds is a list,
and the equations of this module say how that list is made, with no word on
room.
-/

namespace Typeset.Grammar

variable {g : Grammar}

/-- A parse consumes at least one symbol. -/
theorem Sound.length_rest_lt (hg : g.NoEmptyRule) {tc : Typecode} {input : List Symbol}
    {p : Parse} (h : Sound g tc input p) : p.rest.length < input.length := by
  obtain ⟨front, rfl, hderives⟩ := h
  have hpos := (length_of_derives hg).1 hderives
  rw [List.length_append]
  omega

/-- Parts consume at least as many symbols as the body has. -/
theorem SoundParts.length_rest_le (hg : g.NoEmptyRule) {body input : List Symbol} {q : PartsParse}
    (h : SoundParts g body input q) : q.rest.length + body.length ≤ input.length := by
  obtain ⟨front, rfl, hderives⟩ := h
  have hle := (length_of_derives hg).2 hderives
  rw [List.length_append]
  omega

/-- What stands in a growing rule behind its first variable is not empty. -/
theorem length_tail_of_isGrowing {tc : Typecode} {r : Rule} (h : g.isGrowing tc r = true) :
    0 < r.body.tail.length := by
  unfold isGrowing at h
  split at h
  · rename_i hbody
    simp [hbody]
  · simp at h

/-- A seed consumes at least one symbol. -/
theorem length_rest_lt_of_mem_seeds (hg : g.NoEmptyRule) {room : Nat} {active : List Typecode}
    {tc : Typecode} {input : List Symbol} {p : Parse}
    (h : p ∈ (g.seeds room active tc input).toList) : p.rest.length < input.length :=
  (sound_of_mem_seeds (fun _ _ _ hq => sound_of_mem_partsParses hq) h).length_rest_lt hg

/-- What a growing rule adds to an expression consumes at least one symbol. -/
theorem length_rest_lt_of_mem_tail (hg : g.NoEmptyRule) {room : Nat} {tc : Typecode} {r : Rule}
    {input : List Symbol} {q : PartsParse} (hr : g.isGrowing tc r = true)
    (h : q ∈ (g.partsParses room [] r.body.tail input).toList) :
    q.rest.length < input.length := by
  have hle := (sound_of_mem_partsParses h).length_rest_le hg
  have hpos := length_tail_of_isGrowing hr
  omega

/-- With room for the input the search comes to its end, whatever typecodes
are active. -/
theorem finishes_all (hg : g.NoEmptyRule) :
    (∀ room active tc input, input.length ≤ room →
      (g.parses room active tc input).finishes = true) ∧
    (∀ room tc seed, seed.rest.length ≤ room → (g.grown room tc seed).finishes = true) ∧
    (∀ room active body input, input.length ≤ room →
      (g.partsParses room active body input).finishes = true) := by
  apply parses.mutual_induct g
    (fun room active tc input => input.length ≤ room →
      (g.parses room active tc input).finishes = true)
    (fun room tc seed => seed.rest.length ≤ room → (g.grown room tc seed).finishes = true)
    (fun room active body input => input.length ≤ room →
      (g.partsParses room active body input).finishes = true)
  · intro room active tc input ha _
    rw [parses_of_mem ha]
    rfl
  · intro room active tc input ha hparts hgrown hroom
    rw [parses_of_not_mem ha, Enumeration.finishes_bind]
    constructor
    · rw [seeds, Enumeration.finishes_append, Bool.and_eq_true, Enumeration.finishes_bind]
      refine ⟨Enumeration.finishes_ofList _, Enumeration.finishes_ofList _, ?_⟩
      intro r hr
      rw [Enumeration.toList_ofList] at hr
      obtain ⟨rs, hrs, _⟩ := mem_rulesOf hr
      rw [Enumeration.finishes_map]
      exact hparts rs hrs r hroom
    · intro p hp
      have hlt := length_rest_lt_of_mem_seeds hg hp
      cases room with
      | zero => omega
      | succ room => exact hgrown p (by omega)
  · intro room tc seed hparts hgrown hroom
    rw [grown, Enumeration.finishes_bind]
    refine ⟨Enumeration.finishes_ofList _, ?_⟩
    intro r hr
    rw [Enumeration.toList_ofList, List.mem_filter] at hr
    rw [Enumeration.finishes_bind]
    refine ⟨hparts r hroom, ?_⟩
    intro q hq
    have hlt := length_rest_lt_of_mem_tail hg hr.2 hq
    cases room with
    | zero => omega
    | succ room => exact hgrown r q (by simp only; omega)
  · intro room active input _
    rw [partsParses_nil]
    rfl
  · intro room active s body hs _
    rw [partsParses_constant hs]
    rfl
  · intro active body s rest hs hroom
    simp at hroom
  · intro active body s rest room hs ih hroom
    rw [partsParses_constant hs]
    simp only [List.length_cons] at hroom
    simpa using ih (by omega)
  · intro room active s body hs t rest hne _
    rw [partsParses_constant hs]
    simp [hne, Enumeration.finishes]
  · intro room active input s body tc hs hhead htail hroom
    rw [partsParses_variable hs, Enumeration.finishes_bind]
    refine ⟨hhead hroom, ?_⟩
    intro p hp
    have hlt := (sound_of_mem_parses hp).length_rest_lt hg
    cases room with
    | zero => omega
    | succ room =>
      rw [Enumeration.finishes_map]
      exact htail p (by omega)

/-- The seeds of a typecode, made from the readings of its rules. -/
def seedList (g : Grammar) (tc : Typecode) (input : List Symbol)
    (read : Rule → List PartsParse) : List Parse :=
  g.leaf tc input ++ (g.rulesOf tc).flatMap fun r =>
    (read r).map fun q => ⟨.node r.label tc q.parts, q.rest⟩

/-- An expression that a rule makes from a seed and further parts. -/
def grownBy (tc : Typecode) (seed : Parse) (r : Rule) (q : PartsParse) : Parse :=
  ⟨.node r.label tc (seed.formula :: q.parts), q.rest⟩

/-- With room for the input the seeds are listed rule by rule. -/
theorem toList_seeds (hg : g.NoEmptyRule) {room : Nat} {active : List Typecode} {tc : Typecode}
    {input : List Symbol} (hroom : input.length ≤ room) :
    (g.seeds room active tc input).toList =
      g.seedList tc input fun r => (g.partsParses room (tc :: active) r.body input).toList := by
  have hrules : ((Enumeration.ofList (g.rulesOf tc)).bind fun r =>
      (g.partsParses room (tc :: active) r.body input).map fun q =>
        (⟨.node r.label tc q.parts, q.rest⟩ : Parse)).finishes = true := by
    rw [Enumeration.finishes_bind]
    refine ⟨Enumeration.finishes_ofList _, ?_⟩
    intro r _
    rw [Enumeration.finishes_map]
    exact (finishes_all hg).2.2 room _ r.body input hroom
  rw [seeds, Enumeration.toList_append (Enumeration.finishes_ofList _),
    Enumeration.toList_bind hrules]
  simp only [Enumeration.toList_ofList, Enumeration.toList_map, seedList]

/-- With room for the input every seed is listed before what grows from it. -/
theorem toList_parses (hg : g.NoEmptyRule) {room : Nat} {active : List Typecode} {tc : Typecode}
    {input : List Symbol} (ha : tc ∉ active) (hroom : input.length ≤ room + 1) :
    (g.parses (room + 1) active tc input).toList =
      (g.seeds (room + 1) active tc input).toList.flatMap fun p =>
        p :: (g.grown room tc p).toList := by
  have hfin := (finishes_all hg).1 (room + 1) active tc input hroom
  rw [parses_of_not_mem ha] at hfin ⊢
  exact Enumeration.toList_bind hfin

/-- With room for what follows the seed every growth is listed before what
grows from it. -/
theorem toList_grown (hg : g.NoEmptyRule) {room : Nat} {tc : Typecode} {seed : Parse}
    (hroom : seed.rest.length ≤ room + 1) :
    (g.grown (room + 1) tc seed).toList =
      ((g.rulesOf tc).filter (g.isGrowing tc)).flatMap fun r =>
        (g.partsParses (room + 1) [] r.body.tail seed.rest).toList.flatMap fun q =>
          grownBy tc seed r q :: (g.grown room tc (grownBy tc seed r q)).toList := by
  have hfin := (finishes_all hg).2.1 (room + 1) tc seed hroom
  rw [grown] at hfin ⊢
  rw [Enumeration.toList_bind hfin, Enumeration.toList_ofList]
  have hrules := (Enumeration.finishes_bind.mp hfin).2
  rw [Enumeration.toList_ofList] at hrules
  apply List.flatMap_congr
  intro r hr
  exact Enumeration.toList_bind (hrules r hr)

/-- With room for the input the parts of a rule are listed first part by first
part. -/
theorem toList_partsParses (hg : g.NoEmptyRule) {room : Nat} {active : List Typecode} {s : Symbol}
    {tc : Typecode} {body input : List Symbol} (hs : g.variableTypecode? s = some tc)
    (hroom : input.length ≤ room + 1) :
    (g.partsParses (room + 1) active (s :: body) input).toList =
      (g.parses (room + 1) active tc input).toList.flatMap fun p =>
        (g.partsParses room [] body p.rest).toList.map fun q =>
          ⟨p.formula :: q.parts, q.rest⟩ := by
  have hfin := (finishes_all hg).2.2 (room + 1) active (s :: body) input hroom
  rw [partsParses_variable hs] at hfin ⊢
  rw [Enumeration.toList_bind hfin]
  simp only [Enumeration.toList_map]

/-- Nothing is read from an empty input. -/
theorem toList_parses_nil (hg : g.NoEmptyRule) (room : Nat) (active : List Typecode)
    (tc : Typecode) : (g.parses room active tc []).toList = [] := by
  apply List.eq_nil_iff_forall_not_mem.mpr
  intro p hp
  have hlt := (sound_of_mem_parses hp).length_rest_lt hg
  simp at hlt

/-- Nothing grows where nothing follows. -/
theorem toList_grown_nil (hg : g.NoEmptyRule) (room : Nat) (tc : Typecode) {seed : Parse}
    (hseed : seed.rest = []) : (g.grown room tc seed).toList = [] := by
  apply List.eq_nil_iff_forall_not_mem.mpr
  intro p hp
  rw [grown] at hp
  obtain ⟨r, hr, hp⟩ := Enumeration.mem_of_mem_bind hp
  obtain ⟨q, hq, _⟩ := Enumeration.mem_of_mem_bind hp
  rw [Enumeration.toList_ofList, List.mem_filter] at hr
  have hlt := length_rest_lt_of_mem_tail hg hr.2 hq
  simp [hseed] at hlt

/-- A body that begins with a variable cannot be read from an empty input. -/
theorem toList_partsParses_nil (hg : g.NoEmptyRule) (room : Nat) (active : List Typecode)
    (s : Symbol) (body : List Symbol) : (g.partsParses room active (s :: body) []).toList = [] := by
  apply List.eq_nil_iff_forall_not_mem.mpr
  intro q hq
  have hle := (sound_of_mem_partsParses hq).length_rest_le hg
  simp at hle

/-- Two rooms for the input list the same expressions if they list the same
readings of every rule and the same growth of every seed. -/
theorem toList_parses_congr (hg : g.NoEmptyRule) {room room' : Nat} {active : List Typecode}
    {tc : Typecode} {input : List Symbol} (ha : tc ∉ active) (hroom : input.length ≤ room + 1)
    (hroom' : input.length ≤ room' + 1)
    (hparts : ∀ r ∈ g.rulesOf tc, (g.partsParses (room + 1) (tc :: active) r.body input).toList =
      (g.partsParses (room' + 1) (tc :: active) r.body input).toList)
    (hgrown : ∀ p : Parse, p.rest.length < input.length →
      (g.grown room tc p).toList = (g.grown room' tc p).toList) :
    (g.parses (room + 1) active tc input).toList =
      (g.parses (room' + 1) active tc input).toList := by
  have hseeds : (g.seeds (room + 1) active tc input).toList =
      (g.seeds (room' + 1) active tc input).toList := by
    rw [toList_seeds hg hroom, toList_seeds hg hroom', seedList, seedList]
    congr 1
    apply List.flatMap_congr
    intro r hr
    rw [hparts r hr]
  rw [toList_parses hg ha hroom, toList_parses hg ha hroom', hseeds]
  apply List.flatMap_congr
  intro p hp
  rw [hgrown p (length_rest_lt_of_mem_seeds hg hp)]

/-- Two rooms for what follows a seed list the same growth if they list the
same readings of every growing rule and the same growth of every step. -/
theorem toList_grown_congr (hg : g.NoEmptyRule) {room room' : Nat} {tc : Typecode} {seed : Parse}
    (hroom : seed.rest.length ≤ room + 1) (hroom' : seed.rest.length ≤ room' + 1)
    (hparts : ∀ r : Rule, (g.partsParses (room + 1) [] r.body.tail seed.rest).toList =
      (g.partsParses (room' + 1) [] r.body.tail seed.rest).toList)
    (hgrown : ∀ r q, (grownBy tc seed r q).rest.length < seed.rest.length →
      (g.grown room tc (grownBy tc seed r q)).toList =
        (g.grown room' tc (grownBy tc seed r q)).toList) :
    (g.grown (room + 1) tc seed).toList = (g.grown (room' + 1) tc seed).toList := by
  rw [toList_grown hg hroom, toList_grown hg hroom']
  apply List.flatMap_congr
  intro r hr
  rw [hparts r]
  apply List.flatMap_congr
  intro q hq
  have hlt : (grownBy tc seed r q).rest.length < seed.rest.length :=
    length_rest_lt_of_mem_tail hg (List.mem_filter.mp hr).2 hq
  rw [hgrown r q hlt]

/-- Two rooms for the input list the same parts of a body that begins with a
variable if they list the same first parts and the same further ones. -/
theorem toList_partsParses_congr (hg : g.NoEmptyRule) {room room' : Nat} {active : List Typecode}
    {s : Symbol} {tc : Typecode} {body input : List Symbol} (hs : g.variableTypecode? s = some tc)
    (hroom : input.length ≤ room + 1) (hroom' : input.length ≤ room' + 1)
    (hfirst : (g.parses (room + 1) active tc input).toList =
      (g.parses (room' + 1) active tc input).toList)
    (hrest : ∀ p : Parse, p.rest.length < input.length →
      (g.partsParses room [] body p.rest).toList = (g.partsParses room' [] body p.rest).toList) :
    (g.partsParses (room + 1) active (s :: body) input).toList =
      (g.partsParses (room' + 1) active (s :: body) input).toList := by
  rw [toList_partsParses hg hs hroom, toList_partsParses hg hs hroom', hfirst]
  apply List.flatMap_congr
  intro p hp
  rw [hrest p ((sound_of_mem_parses hp).length_rest_lt hg)]

/-- More room than the input needs changes nothing. -/
theorem toList_congr_room (hg : g.NoEmptyRule) :
    (∀ room active tc input, input.length ≤ room → ∀ room', input.length ≤ room' →
      (g.parses room active tc input).toList = (g.parses room' active tc input).toList) ∧
    (∀ room tc seed, seed.rest.length ≤ room → ∀ room', seed.rest.length ≤ room' →
      (g.grown room tc seed).toList = (g.grown room' tc seed).toList) ∧
    (∀ room active body input, input.length ≤ room → ∀ room', input.length ≤ room' →
      (g.partsParses room active body input).toList =
        (g.partsParses room' active body input).toList) := by
  apply parses.mutual_induct g
    (fun room active tc input => input.length ≤ room → ∀ room', input.length ≤ room' →
      (g.parses room active tc input).toList = (g.parses room' active tc input).toList)
    (fun room tc seed => seed.rest.length ≤ room → ∀ room', seed.rest.length ≤ room' →
      (g.grown room tc seed).toList = (g.grown room' tc seed).toList)
    (fun room active body input => input.length ≤ room → ∀ room', input.length ≤ room' →
      (g.partsParses room active body input).toList =
        (g.partsParses room' active body input).toList)
  · intro room active tc input ha _ room' _
    rw [parses_of_mem ha, parses_of_mem ha]
  · intro room active tc input ha hparts hgrown hroom room' hroom'
    rcases Nat.eq_zero_or_pos input.length with hlen | hpos
    · rw [List.length_eq_zero_iff.mp hlen, toList_parses_nil hg, toList_parses_nil hg]
    · obtain ⟨room, rfl⟩ := Nat.exists_eq_add_one.mpr (Nat.lt_of_lt_of_le hpos hroom)
      obtain ⟨room', rfl⟩ := Nat.exists_eq_add_one.mpr (Nat.lt_of_lt_of_le hpos hroom')
      apply toList_parses_congr hg ha hroom hroom'
      · intro r hr
        obtain ⟨rs, hrs, _⟩ := mem_rulesOf hr
        exact hparts rs hrs r hroom (room' + 1) hroom'
      · intro p hlt
        exact hgrown p (by omega) room' (by omega)
  · intro room tc seed hparts hgrown hroom room' hroom'
    rcases Nat.eq_zero_or_pos seed.rest.length with hlen | hpos
    · have hrest := List.length_eq_zero_iff.mp hlen
      rw [toList_grown_nil hg room tc hrest, toList_grown_nil hg room' tc hrest]
    · obtain ⟨room, rfl⟩ := Nat.exists_eq_add_one.mpr (Nat.lt_of_lt_of_le hpos hroom)
      obtain ⟨room', rfl⟩ := Nat.exists_eq_add_one.mpr (Nat.lt_of_lt_of_le hpos hroom')
      apply toList_grown_congr hg hroom hroom'
      · intro r
        exact hparts r hroom (room' + 1) hroom'
      · intro r q hlt
        exact hgrown r q (show (grownBy tc seed r q).rest.length ≤ room by omega) room'
          (show (grownBy tc seed r q).rest.length ≤ room' by omega)
  · intro room active input _ room' _
    rw [partsParses_nil, partsParses_nil]
  · intro room active s body hs _ room' _
    rw [partsParses_constant hs, partsParses_constant hs]
  · intro active body s rest hs hroom
    simp at hroom
  · intro active body s rest room hs ih hroom room' hroom'
    simp only [List.length_cons] at hroom hroom'
    obtain ⟨room', rfl⟩ := Nat.exists_eq_add_one.mpr (Nat.zero_lt_of_lt hroom')
    rw [partsParses_constant hs, partsParses_constant hs]
    simpa using ih (by omega) room' (by omega)
  · intro room active s body hs t rest hne _ room' _
    rw [partsParses_constant hs, partsParses_constant hs]
    simp [hne]
  · intro room active input s body tc hs hhead htail hroom room' hroom'
    rcases Nat.eq_zero_or_pos input.length with hlen | hpos
    · rw [List.length_eq_zero_iff.mp hlen, toList_partsParses_nil hg, toList_partsParses_nil hg]
    · obtain ⟨room, rfl⟩ := Nat.exists_eq_add_one.mpr (Nat.lt_of_lt_of_le hpos hroom)
      obtain ⟨room', rfl⟩ := Nat.exists_eq_add_one.mpr (Nat.lt_of_lt_of_le hpos hroom')
      apply toList_partsParses_congr hg hs hroom hroom' (hhead hroom (room' + 1) hroom')
      intro p hlt
      exact htail p (by omega) room' (by omega)

/-- Every way to read an expression of a typecode at the head of an input,
while the given typecodes are active. -/
def listed (g : Grammar) (active : List Typecode) (tc : Typecode) (input : List Symbol) :
    List Parse :=
  (g.parses input.length active tc input).toList

/-- Every way to read the symbols of a rule at the head of an input. -/
def listedParts (g : Grammar) (active : List Typecode) (body input : List Symbol) :
    List PartsParse :=
  (g.partsParses input.length active body input).toList

/-- Everything that an expression grows into. -/
def listedGrowth (g : Grammar) (tc : Typecode) (seed : Parse) : List Parse :=
  (g.grown seed.rest.length tc seed).toList

/-- Any room that the input fits into lists the same expressions. -/
theorem toList_parses_eq_listed (hg : g.NoEmptyRule) {room : Nat} {active : List Typecode}
    {tc : Typecode} {input : List Symbol} (hroom : input.length ≤ room) :
    (g.parses room active tc input).toList = g.listed active tc input :=
  (toList_congr_room hg).1 room active tc input hroom input.length (Nat.le_refl _)

/-- Any room that the input fits into lists the same parts. -/
theorem toList_partsParses_eq_listedParts (hg : g.NoEmptyRule) {room : Nat}
    {active : List Typecode} {body input : List Symbol} (hroom : input.length ≤ room) :
    (g.partsParses room active body input).toList = g.listedParts active body input :=
  (toList_congr_room hg).2.2 room active body input hroom input.length (Nat.le_refl _)

/-- Any room that fits what follows the seed lists the same growth. -/
theorem toList_grown_eq_listedGrowth (hg : g.NoEmptyRule) {room : Nat} {tc : Typecode}
    {seed : Parse} (hroom : seed.rest.length ≤ room) :
    (g.grown room tc seed).toList = g.listedGrowth tc seed :=
  (toList_congr_room hg).2.1 room tc seed hroom seed.rest.length (Nat.le_refl _)

/-- An active typecode is not entered again. -/
theorem listed_of_mem {active : List Typecode} {tc : Typecode} (ha : tc ∈ active)
    (input : List Symbol) : g.listed active tc input = [] := by
  rw [listed, parses_of_mem ha]
  rfl

/-- The seeds of a typecode that is not active are made from the parts of its
rules, read while the typecode is active. -/
def listedSeeds (g : Grammar) (active : List Typecode) (tc : Typecode) (input : List Symbol) :
    List Parse :=
  g.seedList tc input fun r => g.listedParts (tc :: active) r.body input

/-- A typecode that is not active is read by its seeds, each followed by all
that it grows into. -/
theorem listed_of_not_mem (hg : g.NoEmptyRule) {active : List Typecode} {tc : Typecode}
    (ha : tc ∉ active) (input : List Symbol) :
    g.listed active tc input =
      (g.listedSeeds active tc input).flatMap fun p => p :: g.listedGrowth tc p := by
  have hle : input.length ≤ input.length + 1 := Nat.le_succ _
  have hseeds : (g.seeds (input.length + 1) active tc input).toList =
      g.listedSeeds active tc input := by
    rw [toList_seeds hg hle]
    simp only [toList_partsParses_eq_listedParts hg hle, listedSeeds]
  rw [← toList_parses_eq_listed hg hle, toList_parses hg ha hle, ← hseeds]
  apply List.flatMap_congr
  intro p hp
  have hlt := length_rest_lt_of_mem_seeds hg hp
  rw [toList_grown_eq_listedGrowth hg (Nat.le_of_lt hlt)]

/-- A seed is listed. -/
theorem mem_listed_of_mem_listedSeeds (hg : g.NoEmptyRule) {active : List Typecode}
    {tc : Typecode} {input : List Symbol} {p : Parse} (ha : tc ∉ active)
    (h : p ∈ g.listedSeeds active tc input) : p ∈ g.listed active tc input := by
  rw [listed_of_not_mem hg ha]
  exact List.mem_flatMap.mpr ⟨p, h, List.mem_cons_self⟩

/-- What is listed consumes at least one symbol. -/
theorem length_rest_lt_of_mem_listed (hg : g.NoEmptyRule) {active : List Typecode}
    {tc : Typecode} {input : List Symbol} {p : Parse} (h : p ∈ g.listed active tc input) :
    p.rest.length < input.length :=
  (sound_of_mem_parses h).length_rest_lt hg

/-- An expression grows by every growing rule, and what it grows into grows
on. -/
theorem listedGrowth_eq (hg : g.NoEmptyRule) (tc : Typecode) (seed : Parse) :
    g.listedGrowth tc seed =
      ((g.rulesOf tc).filter (g.isGrowing tc)).flatMap fun r =>
        (g.listedParts [] r.body.tail seed.rest).flatMap fun q =>
          grownBy tc seed r q :: g.listedGrowth tc (grownBy tc seed r q) := by
  have hle : seed.rest.length ≤ seed.rest.length + 1 := Nat.le_succ _
  rw [← toList_grown_eq_listedGrowth hg hle, toList_grown hg hle]
  simp only [toList_partsParses_eq_listedParts hg hle]
  apply List.flatMap_congr
  intro r hr
  apply List.flatMap_congr
  intro q hq
  have hlt := length_rest_lt_of_mem_tail hg (List.mem_filter.mp hr).2 hq
  have hrest : (grownBy tc seed r q).rest.length ≤ seed.rest.length := Nat.le_of_lt hlt
  rw [toList_grown_eq_listedGrowth hg hrest]

/-- An empty body is read from nothing. -/
theorem listedParts_nil (g : Grammar) (active : List Typecode) (input : List Symbol) :
    g.listedParts active [] input = [⟨[], input⟩] := by
  rw [listedParts, partsParses_nil]
  rfl

/-- A constant of a body is read from the same symbol. -/
theorem listedParts_constant {s : Symbol} (hs : g.variableTypecode? s = none)
    (active : List Typecode) (body rest : List Symbol) :
    g.listedParts active (s :: body) (s :: rest) = g.listedParts [] body rest := by
  rw [listedParts, partsParses_constant hs]
  simp only [List.length_cons, if_true]
  rfl

/-- A constant of a body is read from no other symbol. -/
theorem listedParts_constant_of_ne {s t : Symbol} (hs : g.variableTypecode? s = none) (hne : t ≠ s)
    (active : List Typecode) (body rest : List Symbol) :
    g.listedParts active (s :: body) (t :: rest) = [] := by
  rw [listedParts, partsParses_constant hs]
  simp only [if_neg hne]
  rfl

/-- A body with symbols is not read from nothing. -/
theorem listedParts_cons_nil (hg : g.NoEmptyRule) (active : List Typecode) (s : Symbol)
    (body : List Symbol) : g.listedParts active (s :: body) [] = [] :=
  toList_partsParses_nil hg _ active s body

/-- A variable of a body is read as an expression of its typecode, and the rest
of the body behind that. -/
theorem listedParts_variable (hg : g.NoEmptyRule) {s : Symbol} {tc : Typecode}
    (hs : g.variableTypecode? s = some tc) (active : List Typecode) (body input : List Symbol) :
    g.listedParts active (s :: body) input =
      (g.listed active tc input).flatMap fun p =>
        (g.listedParts [] body p.rest).map fun q => ⟨p.formula :: q.parts, q.rest⟩ := by
  have hle : input.length ≤ input.length + 1 := Nat.le_succ _
  rw [← toList_partsParses_eq_listedParts hg hle, toList_partsParses hg hs hle,
    toList_parses_eq_listed hg hle]
  apply List.flatMap_congr
  intro p hp
  have hlt := (sound_of_mem_parses hp).length_rest_lt hg
  rw [toList_partsParses_eq_listedParts hg (Nat.le_of_lt hlt)]

/-- The readings of an input come to an end. -/
theorem finishes_readings (hg : g.NoEmptyRule) (tc : Typecode) (input : List Symbol) :
    (g.readings tc input).finishes = true :=
  (finishes_all hg).1 _ _ tc input (Nat.le_add_right _ _)

/-- The readings of an input are all that can be read while nothing is
active. -/
theorem toList_readings (hg : g.NoEmptyRule) (tc : Typecode) (input : List Symbol) :
    (g.readings tc input).toList = g.listed [] tc input :=
  toList_parses_eq_listed hg (Nat.le_add_right _ _)

/-- The first complete reading is the first in the list that leaves nothing of the
input. -/
theorem read?_eq_find?_listed (hg : g.NoEmptyRule) (tc : Typecode) (symbols : List Symbol) :
    g.read? tc symbols =
      ((g.listed [] tc symbols).find? fun p => p.rest.isEmpty).map (·.formula) := by
  rw [read?, Enumeration.find?_eq_find?_toList, toList_readings hg]

end Typeset.Grammar

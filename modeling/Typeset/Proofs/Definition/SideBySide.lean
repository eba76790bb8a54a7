import Mathlib.Data.List.Forall2
import Mathlib.Data.Option.Basic
import Typeset.Definition.Render

/-!
# Two renders side by side

Two definitions may differ in their schemes, and two renders in what they do
with the formulas that are handed on. To compare them, each step of rendering
is taken on both sides at once: if what is handed on has outcomes that answer
each other, then so do the bindings of a pattern, a scheme and a list of
schemes.
-/

namespace Typeset.Definition

/-- One outcome answers another: it has the same value, or an error that
answers the other's. An outcome with an error that is excused is answered by
any. -/
inductive Answers {α ε ε' : Type} (Excused : ε → Prop) (E : ε → ε' → Prop) :
    Except ε α → Except ε' α → Prop
  /-- The same value. -/
  | ok (a : α) : Answers Excused E (.ok a) (.ok a)
  /-- An error that answers the other. -/
  | error {e : ε} {e' : ε'} (h : E e e') : Answers Excused E (.error e) (.error e')
  /-- Anything. -/
  | excused {e : ε} (h : Excused e) (y : Except ε' α) : Answers Excused E (.error e) y

/-- Two definitions that read patterns alike: their schemes may differ, but
they have one database, and every identifier has one typecode. -/
structure ReadsLike (d d' : Definition) : Prop where
  /-- The database. -/
  database_eq : d'.database = d.database
  /-- The typecode of an identifier. -/
  identifiers_eq : ∀ l, d'.identifiers.get? l = d.identifiers.get? l

/-- A definition reads patterns as it does itself. -/
theorem ReadsLike.refl (d : Definition) : d.ReadsLike d := ⟨rfl, fun _ => rfl⟩

/-- Definitions that read patterns alike say the same of a formula that no
scheme applies to. -/
theorem ReadsLike.unmatched_eq {d d' : Definition} (hd : d.ReadsLike d') (tc : Typecode)
    (f : Formula) : d'.unmatched tc f = d.unmatched tc f := by
  unfold unmatched formulaText
  rw [hd.database_eq]

variable {ε ε' : Type} {Excused : ε → Prop} {E : ε → ε' → Prop}

/-- An outcome answers itself. -/
theorem Answers.refl {α : Type} (x : Except ε α) : Answers Excused Eq x x := by
  cases x with
  | ok a => exact .ok a
  | error e => exact .error rfl

/-- Changing values in the same way keeps the answer. -/
theorem Answers.map {α β : Type} {x : Except ε α} {y : Except ε' α} (h : Answers Excused E x y)
    (k : α → β) : Answers Excused E (x.map k) (y.map k) := by
  cases h with
  | ok a => exact .ok (k a)
  | error he => exact .error he
  | excused he y => exact .excused he _

/-- Going on from a value in the same way keeps the answer. -/
theorem Answers.bind {α β : Type} {x : Except ε α} {y : Except ε' α} (h : Answers Excused E x y)
    {k : α → Except ε β} {k' : α → Except ε' β}
    (hk : ∀ a, x = .ok a → Answers Excused E (k a) (k' a)) :
    Answers Excused E (x.bind k) (y.bind k') := by
  cases h with
  | ok a => exact hk a rfl
  | error he => exact .error he
  | excused he y => exact .excused he _

/-- A value is answered by itself alone. -/
theorem Answers.eq_of_ok {α : Type} {x : Except ε α} {y : Except ε' α} {a : α}
    (h : Answers Excused E x y) (hx : x = .ok a) : y = .ok a := by
  cases h with
  | ok b =>
    cases hx
    rfl
  | error he => cases hx
  | excused he y => cases hx

/-- More may be excused of the errors that an outcome can have. -/
theorem Answers.mono {α : Type} {Excused' : ε → Prop} {x : Except ε α} {y : Except ε' α}
    (h : Answers Excused E x y) (himp : ∀ e, x = .error e → Excused e → Excused' e) :
    Answers Excused' E x y := by
  cases h with
  | ok a => exact .ok a
  | error he => exact .error he
  | excused he y => exact .excused (himp _ rfl he) y

/-- An answer that is the same but for excused errors. -/
theorem Answers.eq_or_excused {α : Type} {x y : Except ε α}
    (h : Answers Excused Eq x y) : x = y ∨ ∃ e, x = .error e ∧ Excused e := by
  cases h with
  | ok a => exact .inl rfl
  | error he => exact .inl (by rw [he])
  | excused he y => exact .inr ⟨_, rfl, he⟩

/-- In lists that agree one by one every member has its partner. -/
theorem exists_mem_of_forall₂ {α β : Type} {R : α → β → Prop} {l : List α} {l' : List β}
    (h : List.Forall₂ R l l') : ∀ a ∈ l, ∃ b ∈ l', R a b := by
  induction h with
  | nil =>
    intro a ha
    cases ha
  | @cons a b l l' hhead _ ih =>
    intro a' ha'
    rcases List.mem_cons.mp ha' with rfl | ha'
    · exact ⟨b, List.mem_cons_self, hhead⟩
    · obtain ⟨b', hb', hR⟩ := ih a' ha'
      exact ⟨b', List.mem_cons_of_mem _ hb', hR⟩

section Steps

variable {d d' : Definition} {settings : Settings} {f f' : Formula}
  {S : Label → Formula → Formula → Prop}
  {render : (tc : Typecode) → (g : Formula) → d.HandsOn f tc g → Except ε (Option String)}
  {render' : (tc : Typecode) → (g : Formula) → d'.HandsOn f' tc g → Except ε' (Option String)}

/-- Bindings are rendered side by side: label by label the same, with formulas
whose renders answer each other. -/
theorem answers_renderBindings (hd : d.ReadsLike d')
    (hr : ∀ l tc g g' h h', S l g g' → d.identifiers.get? l = some tc →
      Answers Excused E (render tc g h) (render' tc g' h'))
    {bs bs' : List (Label × Formula)}
    (hb : List.Forall₂ (fun b b' => b.1 = b'.1 ∧ S b.1 b.2 b'.2) bs bs')
    (h : ∀ b ∈ bs, b.2 = f ∨ b.2.size < f.size) (h' : ∀ b ∈ bs', b.2 = f' ∨ b.2.size < f'.size)
    (texts : Table String String) :
    Answers Excused E (d.renderBindings settings f render bs h texts)
      (d'.renderBindings settings f' render' bs' h' texts) := by
  induction hb generalizing texts with
  | nil => exact .ok (some texts)
  | @cons b b' bs bs' hhead _ ih =>
    obtain ⟨l, g⟩ := b
    obtain ⟨l', g'⟩ := b'
    obtain ⟨rfl, hS⟩ := hhead
    have hn' : d'.database.variableName? l = d.database.variableName? l := by rw [hd.database_eq]
    have ht' : d'.identifiers.get? l = d.identifiers.get? l := hd.identifiers_eq l
    cases hn : d.database.variableName? l with
    | none =>
      rw [renderBindings_of_no_variable hn, renderBindings_of_no_variable (hn'.trans hn)]
      exact .ok none
    | some name =>
      cases ht : d.identifiers.get? l with
      | none =>
        rw [renderBindings_of_no_identifier ht, renderBindings_of_no_identifier (ht'.trans ht)]
        exact .ok none
      | some tc =>
        rw [renderBindings_cons hn ht, renderBindings_cons (hn'.trans hn) (ht'.trans ht)]
        have hstep := hr l tc g g' ⟨List.mem_map.2 ⟨_, Table.mem_of_get? ht, rfl⟩,
            h (l, g) List.mem_cons_self⟩
          ⟨List.mem_map.2 ⟨_, Table.mem_of_get? (ht'.trans ht), rfl⟩,
            h' (l, g') List.mem_cons_self⟩ hS ht
        generalize render tc g _ = x at hstep
        generalize render' tc g' _ = y at hstep
        cases hstep with
        | ok a =>
          cases a with
          | none => exact .ok none
          | some text => exact ih _ _ _
        | error he => exact .error he
        | excused he y => exact .excused he _

/-- A scheme is applied side by side to formulas that its pattern does not tell
apart. -/
theorem answers_applyWith (hd : d.ReadsLike d')
    (hr : ∀ l tc g g' h h', S l g g' → d.identifiers.get? l = some tc →
      Answers Excused E (render tc g h) (render' tc g' h'))
    {s : Scheme} (hsame : s.pattern.same f = s.pattern.same f')
    (hm : Option.Rel
      (fun b b' => List.Forall₂ (fun e e' => e.1 = e'.1 ∧ S e.1 e.2 e'.2) b.entries b'.entries)
      (d.database.match? s.pattern f) (d.database.match? s.pattern f')) :
    Answers Excused E (d.applyWith settings s f render) (d'.applyWith settings s f' render') := by
  cases hs : s.isIdentifier with
  | true =>
    rw [applyWith_of_isIdentifier hs, applyWith_of_isIdentifier hs, hsame]
    exact .ok _
  | false =>
    rw [← hd.database_eq] at hm
    generalize ho : d'.database.match? s.pattern f = o at hm
    generalize ho' : d'.database.match? s.pattern f' = o' at hm
    rw [hd.database_eq] at ho
    cases hm with
    | none =>
      rw [applyWith_of_match?_eq_none hs ho, applyWith_of_match?_eq_none hs ho']
      exact .ok none
    | some hb =>
      rw [applyWith_of_match?_eq_some hs ho, applyWith_of_match?_eq_some hs ho']
      exact (answers_renderBindings hd hr hb _ _ .empty).map _

end Steps

/-- The first text of schemes is found side by side if each scheme is applied
so. -/
theorem answers_firstText {apply : Scheme → Except ε (Option String)}
    {apply' : Scheme → Except ε' (Option String)} {schemes : List Scheme}
    (h : ∀ s ∈ schemes, Answers Excused E (apply s) (apply' s)) :
    Answers Excused E (firstText apply schemes) (firstText apply' schemes) := by
  induction schemes with
  | nil => exact .ok none
  | cons s more ih =>
    rw [firstText, firstText]
    have hs := h s List.mem_cons_self
    generalize apply s = x at hs
    generalize apply' s = y at hs
    cases hs with
    | ok a =>
      cases a with
      | none => exact ih fun t ht => h t (List.mem_cons_of_mem _ ht)
      | some text => exact .ok (some text)
    | error he => exact .error he
    | excused he y => exact .excused he _

/-- Where there is no text so far the schemes behind are tried. -/
theorem firstText_append (apply : Scheme → Except ε (Option String)) (front back : List Scheme) :
    firstText apply (front ++ back) =
      (firstText apply front).bind fun o =>
        match o with
        | some text => .ok (some text)
        | none => firstText apply back := by
  induction front with
  | nil => rfl
  | cons s more ih =>
    rw [List.cons_append, firstText, firstText]
    cases apply s with
    | error e => rfl
    | ok o =>
      cases o with
      | none => exact ih
      | some text => rfl

/-- Schemes give no text exactly if each of them is passed over. -/
theorem firstText_eq_none_iff {apply : Scheme → Except ε (Option String)}
    {schemes : List Scheme} :
    firstText apply schemes = .ok none ↔ ∀ s ∈ schemes, apply s = .ok none := by
  induction schemes with
  | nil => simp [firstText]
  | cons s more ih =>
    rw [firstText, List.forall_mem_cons]
    cases apply s with
    | error e => simp
    | ok o =>
      cases o with
      | none => simpa using ih
      | some text => simp

/-- The first scheme that is not passed over decides what schemes give. -/
theorem firstText_eq_of_passed {apply : Scheme → Except ε (Option String)}
    {front : List Scheme} {s : Scheme} (hfront : ∀ t ∈ front, apply t = .ok none)
    (hs : apply s ≠ .ok none) (back : List Scheme) :
    firstText apply (front ++ s :: back) = apply s := by
  rw [firstText_append, firstText_eq_none_iff.mpr hfront]
  change firstText apply (s :: back) = apply s
  rw [firstText]
  generalize apply s = o at hs
  cases o with
  | error e => rfl
  | ok o =>
    cases o with
    | none => exact absurd rfl hs
    | some text => rfl

/-- Where schemes give a text or an error, one of them is the first that is not
passed over. -/
theorem exists_first_of_firstText {apply : Scheme → Except ε (Option String)}
    {schemes : List Scheme} (h : firstText apply schemes ≠ .ok none) :
    ∃ front s back, schemes = front ++ s :: back ∧ (∀ t ∈ front, apply t = .ok none) ∧
      apply s ≠ .ok none := by
  induction schemes with
  | nil => exact absurd rfl h
  | cons s more ih =>
    by_cases hs : apply s = .ok none
    · rw [firstText, hs] at h
      obtain ⟨front, t, back, rfl, hfront, ht⟩ := ih h
      exact ⟨s :: front, t, back, rfl, List.forall_mem_cons.mpr ⟨hs, hfront⟩, ht⟩
    · exact ⟨[], s, more, rfl, by simp, hs⟩

/-- A formula is rendered side by side where its bucket gives the first text
so, and the errors of the formula itself answer each other. -/
theorem answers_formatWith {d d' : Definition} {settings : Settings} {tc : Typecode}
    {f f' : Formula}
    {render : (tc : Typecode) → (g : Formula) → d.HandsOn f tc g → Except ε (Option String)}
    {render' : (tc : Typecode) → (g : Formula) → d'.HandsOn f' tc g → Except ε' (Option String)}
    {failed : RenderError → ε} {failed' : RenderError → ε'}
    (hnone : d.schemes.get? tc = none → d'.schemes.get? tc = none ∧
      E (failed (.noSchemes tc)) (failed' (.noSchemes tc)))
    (hsome : ∀ schemes, d.schemes.get? tc = some schemes → ∃ schemes',
      d'.schemes.get? tc = some schemes' ∧
      E (failed (d.unmatched tc f)) (failed' (d'.unmatched tc f')) ∧
      Answers Excused E (firstText (fun s => d.applyWith settings s f render) schemes)
        (firstText (fun s => d'.applyWith settings s f' render') schemes')) :
    Answers Excused E (d.formatWith settings failed tc f render)
      (d'.formatWith settings failed' tc f' render') := by
  unfold formatWith
  cases hschemes : d.schemes.get? tc with
  | none =>
    obtain ⟨hschemes', he⟩ := hnone hschemes
    rw [hschemes']
    exact .error he
  | some schemes =>
    obtain ⟨schemes', hschemes', he, hfirst⟩ := hsome schemes hschemes
    rw [hschemes']
    dsimp only
    generalize firstText (fun s => d.applyWith settings s f render) schemes = x at hfirst
    generalize firstText (fun s => d'.applyWith settings s f' render') schemes' = y at hfirst
    cases hfirst with
    | ok a =>
      cases a with
      | none => exact .error he
      | some text => exact .ok text
    | error he => exact .error he
    | excused he y => exact .excused he _

end Typeset.Definition

import Typeset.Proofs.Database.Declared
import Typeset.Proofs.Definition.SideBySide
import Typeset.Proofs.Formula.Sameness

/-!
# The guard against circles is not seen

A render that would begin anew while it is in progress does not apply. Without
this guard rendering need not end; but wherever it ends without the guard it
ends with it in the same way. The reason is that a render that ends needs some
depth of calls, and every render it waits for needs less. So no render in
progress is ever begun anew by one that ends, and the guard finds nothing.
-/

namespace Typeset.Definition

/-- What keeps a render without guard from giving a text. -/
inductive Stop where
  /-- The render failed. -/
  | failed (e : RenderError)
  /-- The render was not over when all calls that were allowed were open. -/
  | unfinished

/-- Renders a formula under a typecode without guard, as far as calls may be
nested to a depth. -/
def formatFreely (d : Definition) (settings : Settings) :
    Nat → Typecode → Formula → Except Stop String
  | 0, _, _ => .error .unfinished
  | depth + 1, tc, f => d.formatWith settings .failed tc f fun tc' g _ =>
    (d.formatFreely settings depth tc' g).map some

/-- One outcome follows another: it has the same value, or an error that
answers the other's. An unfinished outcome is followed by any. -/
inductive Follows {α ε : Type} (E : RenderError → ε → Prop) : Except Stop α → Except ε α → Prop
  /-- The same value. -/
  | ok (a : α) : Follows E (.ok a) (.ok a)
  /-- An error that answers the other. -/
  | failed {e : RenderError} {e' : ε} (h : E e e') : Follows E (.error (.failed e)) (.error e')
  /-- Anything. -/
  | unfinished (y : Except ε α) : Follows E (.error .unfinished) y

variable {d : Definition} {settings : Settings} {ε : Type} {E : RenderError → ε → Prop}

/-- One outcome follows another if it answers it, where only an unfinished one
is excused. -/
theorem follows_iff {α : Type} {x : Except Stop α} {y : Except ε α} :
    Follows E x y ↔
      Answers (· = .unfinished) (fun s e' => ∃ e, s = .failed e ∧ E e e') x y := by
  constructor
  · intro h
    cases h with
    | ok a => exact .ok a
    | failed he => exact .error ⟨_, rfl, he⟩
    | unfinished y =>
      apply Answers.excused
      rfl
  · intro h
    cases h with
    | ok a => exact .ok a
    | error he =>
      obtain ⟨e, rfl, he⟩ := he
      exact .failed he
    | excused hs y =>
      rw [hs]
      exact .unfinished y

/-- Changing values in the same way keeps one outcome behind the other. -/
theorem Follows.map {α β : Type} {x : Except Stop α} {y : Except ε α} (h : Follows E x y)
    (k : α → β) : Follows E (x.map k) (y.map k) :=
  follows_iff.mpr ((follows_iff.mp h).map k)

/-- Two formulas that no pattern tells apart, with parts in a relation. -/
structure Indistinct (d : Definition) (S : Formula → Formula → Prop) (f f' : Formula) : Prop where
  /-- They are the same as the same formulas. -/
  same_eq : ∀ p : Formula, p.same f = p.same f'
  /-- They fit the same patterns. -/
  match?_rel : ∀ p, Option.Rel (Bindings.Rel S) (d.database.match? p f) (d.database.match? p f')

/-- A formula is not told apart from itself. -/
theorem Indistinct.refl (d : Definition) (f : Formula) : d.Indistinct Eq f f := by
  constructor
  · intro p
    rfl
  · intro p
    cases d.database.match? p f with
    | none => exact .none
    | some b => exact .some (List.forall₂_same.mpr fun e _ => ⟨rfl, rfl⟩)

/-- Formulas that are the same up to tags are not told apart. -/
theorem Indistinct.of_same (d : Definition) {f f' : Formula} (h : f.same f' = true) :
    d.Indistinct (fun g g' => g.same g' = true) f f' :=
  ⟨Formula.same_congr h, Formula.match?_alike h d.database.isVariable⟩

/-- Formulas that are not told apart are rendered one behind the other if what
is handed on is. Where they are one formula their errors are the same. -/
theorem follows_formatWith {S : Formula → Formula → Prop} {f f' : Formula}
    {render : (tc : Typecode) → (g : Formula) → d.HandsOn f tc g → Except Stop (Option String)}
    {render' : (tc : Typecode) → (g : Formula) → d.HandsOn f' tc g → Except ε (Option String)}
    {failed : RenderError → ε} (hf : d.Indistinct S f f')
    (he : ∀ e e', (f = f' → e = e') → E e (failed e'))
    (hr : ∀ tc g g' h h', S g g' → Follows E (render tc g h) (render' tc g' h'))
    (tc : Typecode) :
    Follows E (d.formatWith settings .failed tc f render)
      (d.formatWith settings failed tc f' render') := by
  rw [follows_iff]
  apply answers_formatWith
  · intro hnone
    exact ⟨hnone, _, rfl, he _ _ fun _ => rfl⟩
  · intro schemes hschemes
    refine ⟨schemes, hschemes, ⟨_, rfl, he _ _ fun hff' => by rw [hff']⟩, ?_⟩
    apply answers_firstText
    intro s _
    apply answers_applyWith (.refl d) (S := fun _ g g' => S g g') _ (hf.same_eq _)
      (hf.match?_rel _)
    intro l tc' g g' h h' hg _
    exact follows_iff.mp (hr tc' g g' h h' hg)

/-- A render that was over stays as it was when calls may be nested deeper. -/
theorem follows_formatFreely_succ (d : Definition) (settings : Settings) (depth : Nat) :
    ∀ tc f, Follows (fun e s => s = .failed e) (d.formatFreely settings depth tc f)
      (d.formatFreely settings (depth + 1) tc f) := by
  induction depth with
  | zero =>
    intro tc f
    exact .unfinished _
  | succ depth ih =>
    intro tc f
    rw [formatFreely, formatFreely]
    apply follows_formatWith (.refl d f)
    · intro e e' h
      rw [h rfl]
    · rintro tc' g g' _ _ rfl
      exact (ih tc' g).map some

/-- Formulas that are the same up to tags are rendered to one text, or both
fail, at every depth. -/
theorem follows_formatFreely_of_same (d : Definition) (settings : Settings) (depth : Nat) :
    ∀ tc f f', f.same f' = true → Follows (fun _ s => ∃ e', s = .failed e')
      (d.formatFreely settings depth tc f) (d.formatFreely settings depth tc f') := by
  induction depth with
  | zero =>
    intro tc f f' _
    exact .unfinished _
  | succ depth ih =>
    intro tc f f' hsame
    rw [formatFreely, formatFreely]
    apply follows_formatWith (.of_same d hsame)
    · intro e e' _
      exact ⟨e', rfl⟩
    · intro tc' g g' _ _ hg
      exact (ih tc' g g' hg).map some

/-- Whether a render without guard is over at a depth. -/
def Ends (d : Definition) (settings : Settings) (depth : Nat) (tc : Typecode) (f : Formula) :
    Prop := d.formatFreely settings depth tc f ≠ .error .unfinished

/-- What follows an outcome that is over is over. -/
theorem Follows.ends {α : Type} {x y : Except Stop α} {E : RenderError → Stop → Prop}
    (h : Follows E x y) (hE : ∀ e s, E e s → s ≠ .unfinished) (hx : x ≠ .error .unfinished) :
    y ≠ .error .unfinished := by
  cases h with
  | ok a =>
    intro heq
    cases heq
  | failed he =>
    intro heq
    cases heq
    exact hE _ _ he rfl
  | unfinished y => exact absurd rfl hx

/-- A render that is over is over at any greater depth, in the same way. -/
theorem Ends.succ {depth : Nat} {tc : Typecode} {f : Formula} (h : d.Ends settings depth tc f) :
    d.formatFreely settings (depth + 1) tc f = d.formatFreely settings depth tc f := by
  have hfollows := follows_formatFreely_succ d settings depth tc f
  unfold Ends at h
  generalize d.formatFreely settings depth tc f = x at h hfollows
  generalize d.formatFreely settings (depth + 1) tc f = y at hfollows
  cases hfollows with
  | ok a => rfl
  | failed he => rw [he]
  | unfinished y => exact absurd rfl h

/-- Formulas that are the same up to tags are rendered at the same depth. -/
theorem Ends.of_same {depth : Nat} {tc : Typecode} {f f' : Formula}
    (h : d.Ends settings depth tc f) (hsame : f.same f' = true) : d.Ends settings depth tc f' := by
  have hfollows := follows_formatFreely_of_same d settings depth tc f f' hsame
  apply hfollows.ends _ h
  rintro e s ⟨e', rfl⟩ heq
  cases heq

/-- A render that is over at a depth where no render in progress is over has
the same outcome with the guard. -/
theorem follows_format (d : Definition) (settings : Settings) (depth : Nat) :
    ∀ tc f (pending : Pending), (∀ p ∈ pending, ¬d.Ends settings depth p.1 p.2.formula) →
      Follows Eq (d.formatFreely settings depth tc f) (d.format settings tc f pending) := by
  induction depth with
  | zero =>
    intro tc f pending _
    exact .unfinished _
  | succ depth ih =>
    intro tc f pending hpending
    have hbelow : ∀ p ∈ pending, ¬d.Ends settings depth p.1 p.2.formula := by
      intro p hp hends
      apply hpending p hp
      unfold Ends
      rw [hends.succ]
      exact hends
    by_cases hends : d.Ends settings depth tc f
    · rw [hends.succ]
      exact ih tc f pending hbelow
    · rw [formatFreely, format]
      apply follows_formatWith (.refl d f)
      · intro e e' h
        exact h rfl
      · rintro tc' g g' _ _ rfl
        have hbegun : ∀ p ∈ (tc, Measured.of f) :: pending,
            ¬d.Ends settings depth p.1 p.2.formula := by
          intro p hp
          rcases List.mem_cons.mp hp with rfl | hp
          · exact hends
          · exact hbelow p hp
        by_cases hg : d.Ends settings depth tc' g
        · have hnew : ¬Pending.has ((tc, Measured.of f) :: pending) tc' g = true := by
            intro hhas
            obtain ⟨p, hp, rfl, hsame⟩ := Pending.has_iff.mp hhas
            rw [Formula.same_comm] at hsame
            exact hbegun p hp (hg.of_same hsame)
          rw [dif_neg hnew]
          exact (ih tc' g _ hbegun).map some
        · have hstop : d.formatFreely settings depth tc' g = .error .unfinished := by
            simpa [Ends] using hg
          rw [hstop]
          exact .unfinished _

/-- The guard against circles changes no render that ends without it: with the
guard there is the same text, or the same error. -/
theorem format_eq_of_formatFreely (d : Definition) (settings : Settings) (tc : Typecode)
    (f : Formula) {depth : Nat} {o : Except RenderError String}
    (h : d.formatFreely settings depth tc f = o.mapError .failed) :
    d.format settings tc f [] = o := by
  have hfollows := follows_format d settings depth tc f [] (by simp)
  rw [h] at hfollows
  generalize d.format settings tc f [] = y at hfollows
  cases o with
  | ok text =>
    cases hfollows
    rfl
  | error e =>
    cases hfollows with
    | failed he => rw [he]

/-- A definition for the small database: classes by their names and sums. Its
last scheme hands any class on to the schemes of classes. -/
def sampleSums : Definition where
  database := .sample
  schemes := ⟨[("c", [⟨true, "c", .node "cx" "c" [], "x", 1⟩,
    ⟨false, "c", .node "add" "c" [.node "cx" "c" [], .node "cy" "c" []], "(#x# + #y#)", 2⟩,
    ⟨true, "c", .node "cy" "c" [], "y", 3⟩, ⟨false, "c", .node "cx" "c" [], "#x#", 4⟩])]⟩
  identifiers := ⟨[("cx", "c"), ("cy", "c")]⟩
  header := ""
  display := "###"

/-- A sum is rendered without guard, and so it is with it. -/
theorem format_eq_of_formatFreely_sampleSums :
    sampleSums.formatFreely {} 2 "c" Database.sampleSum =
        (Except.ok "(x + y)").mapError .failed ∧
      sampleSums.format {} "c" Database.sampleSum [] = .ok "(x + y)" := by
  have hfreely : sampleSums.formatFreely {} 2 "c" Database.sampleSum =
      (Except.ok "(x + y)").mapError .failed := by
    rfl
  exact ⟨hfreely, format_eq_of_formatFreely sampleSums {} "c" _ hfreely⟩

/-- A formula that no other scheme of a class applies to would be handed on
without end; the guard makes it one that no scheme applies to. -/
example : sampleSums.formatFreely {} 5 "c" (.node "zero" "c" []) = .error .unfinished ∧
    sampleSums.format {} "c" (.node "zero" "c" []) [] =
      .error (.noMatch (.node "zero" "c" []) "c" "zero") :=
  ⟨by rfl, by decide +kernel⟩

end Typeset.Definition

/-!
# The journal of a run

While files are read and formulas rendered, notes are written down: warnings,
which are always kept, and details, which are kept only if the reader asked
for that much. A note may carry the name of the source that was being read.
`Logged` pairs the outcome of a computation with the notes it wrote; a
failure keeps the notes that came before it.
-/

namespace Typeset

/-- How much a note matters. -/
inductive Importance where
  /-- A diagnosis that is always kept. -/
  | warning
  /-- A detail, kept from the given verbosity on. -/
  | detail (level : Int)
deriving DecidableEq, Repr

/-- One note of the journal. -/
structure Note where
  /-- How much the note matters. -/
  importance : Importance
  /-- The source that was being read, if any. -/
  source : Option String := none
  /-- What the note says. -/
  message : String
deriving DecidableEq, Repr

/-- The verbosity that a reader asked for; without one no detail is kept. -/
abbrev Verbosity := Option Int

/-- Whether a note is kept under a verbosity. -/
def Note.isKept (v : Verbosity) (n : Note) : Bool :=
  match n.importance with
  | .warning => true
  | .detail level => v.any (level ≤ ·)

/-- The name shown as a note's source. -/
def Note.sourceName (n : Note) : String := n.source.getD "-"

/-- Names the source of a note that has none yet, so that the innermost
source wins. -/
def Note.from (source : String) (n : Note) : Note :=
  { n with source := n.source.or (some source) }

/-- An outcome with the notes written on the way to it. -/
structure Logged (ε α : Type) where
  /-- The notes, the oldest first. -/
  notes : List Note
  /-- How the computation ended. -/
  outcome : Except ε α

namespace Logged

variable {ε ε' α β : Type}

/-- An outcome without notes. -/
def ofExcept (x : Except ε α) : Logged ε α := ⟨[], x⟩

/-- Goes on with the value of a computation that succeeded. -/
def andThen (x : Logged ε α) (f : α → Logged ε β) : Logged ε β :=
  match x.outcome with
  | .ok a =>
    let y := f a
    ⟨x.notes ++ y.notes, y.outcome⟩
  | .error e => ⟨x.notes, .error e⟩

instance : Monad (Logged ε) where
  pure a := ⟨[], .ok a⟩
  bind := andThen

/-- Fails without a note. -/
def fail (e : ε) : Logged ε α := ofExcept (.error e)

/-- Writes notes. -/
def write (notes : List Note) : Logged ε Unit := ⟨notes, .ok ()⟩

/-- Writes a note of detail. -/
def detail (level : Int) (message : String) : Logged ε Unit :=
  write [⟨.detail level, none, message⟩]

/-- Writes a warning. -/
def warn (message : String) : Logged ε Unit := write [⟨.warning, none, message⟩]

/-- Names the source of all notes that have none. -/
def within (source : String) (x : Logged ε α) : Logged ε α :=
  { x with notes := x.notes.map (Note.from source) }

/-- Turns a failure into a value, so that the computation goes on. -/
def attempt (x : Logged ε α) : Logged ε' (Except ε α) := ⟨x.notes, .ok x.outcome⟩

/-- Restates a failure in other words. -/
def mapError (f : ε → ε') (x : Logged ε α) : Logged ε' α := ⟨x.notes, x.outcome.mapError f⟩

/-- The notes that a verbosity keeps. -/
def kept (v : Verbosity) (x : Logged ε α) : List Note := x.notes.filter (·.isKept v)

@[simp] theorem notes_pure (a : α) : (pure a : Logged ε α).notes = [] := rfl

@[simp] theorem outcome_pure (a : α) : (pure a : Logged ε α).outcome = .ok a := rfl

/-- The outcome of two steps is that of the second after the first. -/
theorem outcome_bind (x : Logged ε α) (f : α → Logged ε β) :
    (x >>= f).outcome = x.outcome.bind fun a => (f a).outcome := by
  simp only [Bind.bind, andThen, Except.bind]
  cases x.outcome <;> rfl

/-- Two steps end well when the first does and the second does after it. -/
theorem outcome_bind_eq_ok {x : Logged ε α} {f : α → Logged ε β} {b : β} :
    (x >>= f).outcome = .ok b ↔ ∃ a, x.outcome = .ok a ∧ (f a).outcome = .ok b := by
  rw [outcome_bind]
  cases x.outcome <;> simp [Except.bind]

/-- A step that ends well is followed by the notes of the next one. -/
theorem notes_bind_of_outcome {x : Logged ε α} {a : α} (h : x.outcome = .ok a)
    (f : α → Logged ε β) : (x >>= f).notes = x.notes ++ (f a).notes := by
  simp only [Bind.bind, andThen, h]

/-- An outcome that is a value goes on with it. -/
@[simp] theorem ofExcept_ok_bind (a : α) (f : α → Logged ε β) :
    (ofExcept (.ok a) >>= f) = f a := rfl

instance : LawfulMonad (Logged ε) := LawfulMonad.mk' (Logged ε)
  (by
    rintro α ⟨notes, _ | _⟩ <;> simp [Functor.map, andThen])
  (by
    intro α β x f
    simp [Bind.bind, Pure.pure, andThen])
  (by
    rintro α β γ ⟨notes, _ | a⟩ f g
    · simp [Bind.bind, andThen]
    · simp only [Bind.bind, andThen]
      cases (f a).outcome <;> simp)

/-- Steps for each member of a list end well if each of them does. -/
theorem outcome_forM {f : α → Logged ε PUnit} {l : List α}
    (h : ∀ a ∈ l, (f a).outcome = .ok ⟨⟩) : (l.forM f).outcome = .ok ⟨⟩ := by
  induction l with
  | nil => rfl
  | cons a rest ih =>
    change (f a >>= fun _ => rest.forM f).outcome = .ok ⟨⟩
    rw [outcome_bind, h a List.mem_cons_self]
    exact ih fun b hb => h b (List.mem_cons_of_mem a hb)

/-- The values made from the members of a list come from the outcomes alone. -/
theorem outcome_mapM (f : α → Logged ε β) (l : List α) :
    (l.mapM f).outcome = l.mapM fun a => (f a).outcome := by
  induction l with
  | nil => rfl
  | cons a rest ih =>
    rw [List.mapM_cons, List.mapM_cons, outcome_bind]
    cases (f a).outcome with
    | error e => rfl
    | ok b =>
      change ((rest.mapM f) >>= fun bs => pure (b :: bs)).outcome = _
      rw [outcome_bind, ih]
      rfl

end Logged

/-- An entry made directly in the journal, outside any computation. -/
inductive Entry where
  /-- From here on a reader with this verbosity is connected, or none. -/
  | connect (v : Verbosity)
  /-- A detail is written. -/
  | detail (message : String) (level : Int)
  /-- A warning is written. -/
  | warning (message : String)
  /-- A source begins to be read. -/
  | enter (source : String)
  /-- The source entered last is left. -/
  | leave
deriving DecidableEq, Repr

/-- What can be wrong with a list of entries. -/
inductive EntryError where
  /-- A source is left where none is open. -/
  | nothingOpen
deriving DecidableEq, Repr

/-- Writes a list of entries. Notes are kept or not under the verbosity that is
connected when they are written, and stand under the innermost source then
open. A source can only be left while one is open. -/
def Entry.play (v : Verbosity) (sources : List String) : List Entry → Logged EntryError Unit
  | [] => pure ()
  | .connect w :: rest => play w sources rest
  | .detail message level :: rest => do
    .write ([⟨.detail level, sources.head?, message⟩].filter (·.isKept v))
    play v sources rest
  | .warning message :: rest => do
    .write [⟨.warning, sources.head?, message⟩]
    play v sources rest
  | .enter source :: rest => play v (source :: sources) rest
  | .leave :: rest =>
    match sources with
    | [] => .fail .nothingOpen
    | _ :: sources => play v sources rest

end Typeset

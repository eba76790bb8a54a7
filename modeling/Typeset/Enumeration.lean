/-!
# Enumerations made on demand

A search may have far more results than are wanted, or more than can be
counted. An enumeration gives one result at a time and makes the next one
only when asked. It ends in one of two ways: `done` says that there are no
more results, `cut` says that the search was given up and that nothing is
known about what would have followed.
-/

namespace Typeset

/-- Results in order, each made when it is asked for. -/
inductive Enumeration (α : Type) where
  /-- There are no more results. -/
  | done
  /-- The search was given up here. -/
  | cut
  /-- A result, and how to go on after it. -/
  | item (head : α) (tail : Unit → Enumeration α)

namespace Enumeration

variable {α β : Type}

/-- The results of a list. -/
def ofList : List α → Enumeration α
  | [] => done
  | a :: rest => item a fun _ => ofList rest

/-- All results, made at once. -/
def toList : Enumeration α → List α
  | done => []
  | cut => []
  | item a tail => a :: (tail ()).toList

/-- Whether the enumeration comes to its end without being given up. -/
def finishes : Enumeration α → Bool
  | done => true
  | cut => false
  | item _ tail => (tail ()).finishes

/-- One enumeration after another. A search that was given up hides what
comes after it. -/
def append : Enumeration α → (Unit → Enumeration α) → Enumeration α
  | done, next => next ()
  | cut, _ => cut
  | item a tail, next => item a fun _ => (tail ()).append next

/-- Puts an enumeration in the place of each result. -/
def bind : Enumeration α → (α → Enumeration β) → Enumeration β
  | done, _ => done
  | cut, _ => cut
  | item a tail, f => (f a).append fun _ => (tail ()).bind f

/-- Changes each result. -/
def map (f : α → β) : Enumeration α → Enumeration β
  | done => done
  | cut => cut
  | item a tail => item (f a) fun _ => (tail ()).map f

/-- The first result that passes a test. No result after it is made. -/
def find? (p : α → Bool) : Enumeration α → Option α
  | done => none
  | cut => none
  | item a tail => if p a then some a else (tail ()).find? p

/-- The first `n` results. No result after them is made. -/
def take : Nat → Enumeration α → List α
  | 0, _ => []
  | _ + 1, done => []
  | _ + 1, cut => []
  | 1, item a _ => [a]
  | n + 2, item a tail => a :: (tail ()).take (n + 1)

@[simp] theorem toList_ofList (l : List α) : (ofList l).toList = l := by
  induction l with
  | nil => rfl
  | cons a rest ih => simp [ofList, toList, ih]

@[simp] theorem finishes_ofList (l : List α) : (ofList l).finishes = true := by
  induction l with
  | nil => rfl
  | cons a rest ih => simp [ofList, finishes, ih]

/-- An appended enumeration finishes when both parts do. -/
@[simp] theorem finishes_append (e : Enumeration α) (next : Unit → Enumeration α) :
    (e.append next).finishes = (e.finishes && (next ()).finishes) := by
  induction e with
  | done => simp [append, finishes]
  | cut => simp [append, finishes]
  | item a tail ih => simp [append, finishes, ih]

/-- After an enumeration that finishes come the results of the next one. -/
theorem toList_append {e : Enumeration α} (h : e.finishes = true)
    (next : Unit → Enumeration α) : (e.append next).toList = e.toList ++ (next ()).toList := by
  induction e with
  | done => simp [append, toList]
  | cut => simp [finishes] at h
  | item a tail ih => simp [append, toList, ih () h]

/-- Whatever is listed by two enumerations in a row is listed by one of them. -/
theorem mem_of_mem_append {e : Enumeration α} {next : Unit → Enumeration α} {x : α}
    (h : x ∈ (e.append next).toList) : x ∈ e.toList ∨ x ∈ (next ()).toList := by
  induction e with
  | done => exact .inr h
  | cut => simp [append, toList] at h
  | item a tail ih =>
    simp only [append, toList, List.mem_cons] at h ⊢
    rcases h with h | h
    · exact .inl (.inl h)
    · exact (ih () h).imp_left .inr

/-- Whatever is listed in the places of results is listed in the place of one
of them. -/
theorem mem_of_mem_bind {e : Enumeration α} {f : α → Enumeration β} {x : β}
    (h : x ∈ (e.bind f).toList) : ∃ a ∈ e.toList, x ∈ (f a).toList := by
  induction e with
  | done => simp [bind, toList] at h
  | cut => simp [bind, toList] at h
  | item a tail ih =>
    rcases mem_of_mem_append h with h | h
    · exact ⟨a, by simp [toList], h⟩
    · obtain ⟨b, hb, hx⟩ := ih () h
      exact ⟨b, by simp [toList, hb], hx⟩

/-- Putting enumerations in the places of results gives one that finishes if
the results come to an end and all that is put in their places finishes. -/
theorem finishes_bind {e : Enumeration α} {f : α → Enumeration β} :
    (e.bind f).finishes = true ↔ e.finishes = true ∧ ∀ a ∈ e.toList, (f a).finishes = true := by
  induction e with
  | done => simp [bind, finishes, toList]
  | cut => simp [bind, finishes]
  | item a tail ih =>
    simp only [bind, finishes_append, Bool.and_eq_true, finishes, toList, List.forall_mem_cons, ih]
    exact and_left_comm

/-- What is put in the places of results is listed place by place. -/
theorem toList_bind {e : Enumeration α} {f : α → Enumeration β}
    (h : (e.bind f).finishes = true) :
    (e.bind f).toList = e.toList.flatMap fun a => (f a).toList := by
  induction e with
  | done => rfl
  | cut => simp [bind, finishes] at h
  | item a tail ih =>
    rw [bind, finishes_append, Bool.and_eq_true] at h
    rw [bind, toList_append h.1, ih () h.2, toList, List.flatMap_cons]

@[simp] theorem toList_map (f : α → β) (e : Enumeration α) : (e.map f).toList = e.toList.map f := by
  induction e with
  | done => rfl
  | cut => rfl
  | item a tail ih => simp [map, toList, ih]

@[simp] theorem finishes_map (f : α → β) (e : Enumeration α) :
    (e.map f).finishes = e.finishes := by
  induction e with
  | done => rfl
  | cut => rfl
  | item a tail ih => simp [map, finishes, ih]

/-- Taking results is taking them from the list of all of them. -/
theorem take_eq_take_toList (n : Nat) (e : Enumeration α) : e.take n = e.toList.take n := by
  induction n generalizing e with
  | zero => simp [take]
  | succ n ih =>
    cases e with
    | done => simp [take, toList]
    | cut => simp [take, toList]
    | item a tail => cases n <;> simp [take, toList, ih]

/-- Searching on demand finds what a search of all results finds. -/
theorem find?_eq_find?_toList (p : α → Bool) (e : Enumeration α) :
    e.find? p = e.toList.find? p := by
  induction e with
  | done => rfl
  | cut => rfl
  | item a tail ih =>
    simp only [find?, toList, List.find?_cons, ih]
    cases p a <;> rfl

end Enumeration

end Typeset

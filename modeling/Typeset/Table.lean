/-!
# Tables in the order of first entry

A table lists its keys in the order in which they first came. Setting a key
that is already there changes its value and leaves its place; a new key goes
to the end. What a table lists is therefore a matter of the values that were
set and of the order of the first settings alone.

The recursions of this library that do not follow a tree go down on a count of
what a table lists: typecodes that are not active yet, renders that have not
begun yet. One more active typecode is one fewer to come.
-/

namespace Typeset

/-- Values under keys, in the order in which the keys first came. -/
structure Table (κ : Type) (α : Type) where
  /-- The entries in order. -/
  entries : List (κ × α) := []
deriving Repr, DecidableEq

namespace Table

variable {κ α : Type} [DecidableEq κ]

/-- The table without entries. -/
def empty : Table κ α := ⟨[]⟩

/-- The value under a key. -/
def get? (t : Table κ α) (k : κ) : Option α := t.entries.lookup k

/-- Whether a key is in the table. -/
def contains (t : Table κ α) (k : κ) : Bool := (t.get? k).isSome

/-- Sets the value of a key within a list of entries. -/
def setEntry (k : κ) (a : α) : List (κ × α) → List (κ × α)
  | [] => [(k, a)]
  | (k', a') :: rest => if k = k' then (k', a) :: rest else (k', a') :: setEntry k a rest

/-- Sets the value of a key: in its place, or at the end if the key is new. -/
def set (t : Table κ α) (k : κ) (a : α) : Table κ α := ⟨setEntry k a t.entries⟩

/-- The keys in order. -/
def keys (t : Table κ α) : List κ := t.entries.map (·.1)

/-- The values in the order of their keys. -/
def values (t : Table κ α) : List α := t.entries.map (·.2)

/-- How many keys there are. -/
def size (t : Table κ α) : Nat := t.entries.length

/-- Sets a list of entries one after the other. -/
def ofList (entries : List (κ × α)) : Table κ α :=
  entries.foldl (fun t e => t.set e.1 e.2) empty

/-- Looking up within changed entries. -/
theorem lookup_setEntry (k k' : κ) (a : α) (l : List (κ × α)) :
    (setEntry k a l).lookup k' = if k' = k then some a else l.lookup k' := by
  induction l with
  | nil => by_cases h : k' = k <;> simp [setEntry, List.lookup_cons, h, beq_eq_false_iff_ne.2]
  | cons e rest ih =>
    by_cases h : k = e.1 <;> by_cases hk : k' = e.1 <;> grind [setEntry]

/-- Changed entries have the keys they had, and the new key at the end. -/
theorem map_setEntry (k : κ) (a : α) (l : List (κ × α)) :
    (setEntry k a l).map (·.1) = if k ∈ l.map (·.1) then l.map (·.1) else l.map (·.1) ++ [k] := by
  induction l with
  | nil => simp [setEntry]
  | cons e rest ih => by_cases h : k = e.1 <;> grind [setEntry]

/-- Setting a new key among entries adds an entry at the end. -/
theorem setEntry_of_notMem {k : κ} {l : List (κ × α)} (h : k ∉ l.map (·.1)) (a : α) :
    setEntry k a l = l ++ [(k, a)] := by
  induction l with
  | nil => rfl
  | cons e rest ih =>
    rw [List.map_cons, List.mem_cons, not_or] at h
    rw [setEntry, if_neg h.1, ih h.2, List.cons_append]

/-- A key that was set has the value that was set last; the others keep theirs. -/
theorem get?_set (t : Table κ α) (k k' : κ) (a : α) :
    (t.set k a).get? k' = if k' = k then some a else t.get? k' :=
  lookup_setEntry k k' a t.entries

/-- The key just set. -/
@[simp] theorem get?_set_self (t : Table κ α) (k : κ) (a : α) : (t.set k a).get? k = some a := by
  simp [get?_set]

/-- Any other key. -/
theorem get?_set_of_ne {t : Table κ α} {k k' : κ} {a : α} (h : k' ≠ k) :
    (t.set k a).get? k' = t.get? k' := by
  simp [get?_set, h]

/-- A value found is the value of an entry. -/
theorem mem_of_get? {t : Table κ α} {k : κ} {a : α} (h : t.get? k = some a) :
    (k, a) ∈ t.entries := by
  obtain ⟨l⟩ := t
  simp only [get?] at h
  induction l with
  | nil => simp at h
  | cons e rest ih =>
    obtain ⟨key, value⟩ := e
    rw [List.lookup_cons] at h
    split at h
    · simp_all
    · simp [ih h]

/-- A key with a value is one of the keys. -/
theorem mem_keys_of_get? {t : Table κ α} {k : κ} {a : α} (h : t.get? k = some a) : k ∈ t.keys :=
  List.mem_map.2 ⟨_, mem_of_get? h, rfl⟩

/-- Setting a key changes the keys only by adding a new one at the end. -/
theorem keys_set (t : Table κ α) (k : κ) (a : α) :
    (t.set k a).keys = if k ∈ t.keys then t.keys else t.keys ++ [k] :=
  map_setEntry k a t.entries

/-- Setting a new key adds its entry at the end. -/
theorem entries_set_of_notMem {t : Table κ α} {k : κ} (h : k ∉ t.keys) (a : α) :
    (t.set k a).entries = t.entries ++ [(k, a)] :=
  setEntry_of_notMem h a

/-- Where no key comes twice every entry is found. -/
theorem get?_of_mem {t : Table κ α} (hnodup : t.keys.Nodup) {k : κ} {a : α}
    (h : (k, a) ∈ t.entries) : t.get? k = some a := by
  obtain ⟨l⟩ := t
  unfold get?
  unfold keys at hnodup
  dsimp only at h hnodup ⊢
  induction l with
  | nil => cases h
  | cons e rest ih =>
    rw [List.map_cons, List.nodup_cons] at hnodup
    rw [List.lookup_cons]
    rcases List.mem_cons.mp h with rfl | h
    · simp
    · have hne : k ≠ e.1 := by
        rintro rfl
        exact hnodup.1 (List.mem_map.mpr ⟨_, h, rfl⟩)
      rw [beq_eq_false_iff_ne.mpr hne]
      exact ih hnodup.2 h

/-- Every key has a value. -/
theorem exists_get?_of_mem_keys {t : Table κ α} {k : κ} (h : k ∈ t.keys) :
    ∃ a, t.get? k = some a := by
  obtain ⟨l⟩ := t
  unfold get?
  unfold keys at h
  dsimp only at h ⊢
  induction l with
  | nil => cases h
  | cons e rest ih =>
    rw [List.lookup_cons]
    split
    · exact ⟨e.2, rfl⟩
    · rename_i hne
      rcases List.mem_cons.mp h with rfl | h
      · simp at hne
      · exact ih h

/-- Setting entries with different new keys adds them at the end. -/
theorem entries_foldl_set {es : List (κ × α)} {t : Table κ α} (hnodup : (es.map (·.1)).Nodup)
    (hfresh : ∀ e ∈ es, e.1 ∉ t.keys) :
    (es.foldl (fun t e => t.set e.1 e.2) t).entries = t.entries ++ es := by
  induction es generalizing t with
  | nil => simp
  | cons e es ih =>
    rw [List.map_cons, List.nodup_cons] at hnodup
    rw [List.forall_mem_cons] at hfresh
    rw [List.foldl_cons, ih hnodup.2, entries_set_of_notMem hfresh.1, List.append_assoc]
    · rfl
    · intro e' he'
      rw [keys_set, if_neg hfresh.1, List.mem_append, List.mem_singleton, not_or]
      refine ⟨hfresh.2 e' he', ?_⟩
      intro heq
      exact hnodup.1 (List.mem_map.mpr ⟨e', he', heq⟩)

/-- A table of entries with different keys lists them as they are given. -/
theorem entries_ofList {es : List (κ × α)} (hnodup : (es.map (·.1)).Nodup) :
    (ofList es).entries = es :=
  entries_foldl_set hnodup (by simp [keys, empty])

/-- What is none of the keys has no value. -/
theorem get?_of_notMem {t : Table κ α} {k : κ} (h : k ∉ t.keys) : t.get? k = none := by
  cases hk : t.get? k with
  | none => rfl
  | some a => exact absurd (mem_keys_of_get? hk) h

end Table

section Counting

variable {κ α : Type}

/-- No more keys pass a test than there are. -/
theorem Table.countP_keys_le (t : Table κ α) (p : κ → Bool) : t.keys.countP p ≤ t.size := by
  rw [Table.size, ← List.length_map (·.1)]
  exact List.countP_le_length

/-- No more values pass a test than there are keys. -/
theorem Table.countP_values_le (t : Table κ α) (p : α → Bool) : t.values.countP p ≤ t.size := by
  rw [Table.size, ← List.length_map (·.2)]
  exact List.countP_le_length

/-- Counting with a stronger test, which one member fails, counts less. -/
theorem countP_lt_countP {p q : α → Bool} {l : List α} {a : α}
    (hpq : ∀ x, p x = true → q x = true) (ha : a ∈ l) (hq : q a = true) (hp : p a = false) :
    l.countP p < l.countP q := by
  induction l with
  | nil => simp at ha
  | cons b rest ih =>
    have hle := List.countP_mono_left (l := rest) (p := p) (q := q) fun x _ => hpq x
    rw [List.countP_cons, List.countP_cons]
    rcases List.mem_cons.1 ha with rfl | hr
    · simp only [hp, hq, if_true, Bool.false_eq_true, if_false]
      omega
    · have := ih hr
      by_cases hb : p b = true
      · simp only [hb, hpq b hb, if_true]
        omega
      · simp only [Bool.not_eq_true] at hb
        simp only [hb, Bool.false_eq_true, if_false]
        split <;> omega

/-- Of two numbers written in one base, the one with the smaller leading part
is the smaller one, as long as its last part fits the base. -/
theorem mul_add_lt_mul_add {a a' b base : Nat} (h : a < a') (hb : b ≤ base) (b' : Nat) :
    a * (base + 1) + b < a' * (base + 1) + b' := by
  have := Nat.mul_le_mul_right (base + 1) h
  rw [Nat.succ_mul] at this
  omega

end Counting

end Typeset

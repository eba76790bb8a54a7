import Typeset.Proofs.Database.Scoping

/-!
# What words leave open

Some words open something that another word closes, and until then every word
belongs to what is open. Which word is open behind the words of a source, and with
which words since, is told from the words alone. The reader is always inside of what
its words leave open: a word that closes it ends it, and any other word is kept.
-/

namespace Typeset.Database

open Text

/-- The words that open something which another word closes. -/
def openers : List String := ["$(", "$c", "$v", "$d", "$f", "$e", "$a", "$p"]

/-- What is open behind a further word: the word that opened it, with the words
since. -/
def openAfter : Option (String × List String) → String → Option (String × List String)
  | none, t => if t ∈ openers then some (t, []) else none
  | some (opener, inner), t =>
    if t = closerOf opener then none else some (opener, inner ++ [t])

/-- What words leave open. -/
def openBehind (ts : List String) : Option (String × List String) := ts.foldl openAfter none

/-- What the reader is inside of, as the words say it. -/
def Place.left : Place → Option (String × List String)
  | outside => none
  | comment _ read => some ("$(", read.reverse.map fun w => String.ofList w.text)
  | symbols list _ read => some (list.keyword, read)
  | statement kind _ _ read => some (kind.keyword, read)

/-- Where nothing is open the reader is outside of everything. -/
theorem Place.eq_outside_of_left {p : Place} (h : p.left = none) : p = .outside := by
  cases p with
  | outside => rfl
  | comment opened read => cases h
  | symbols list opened read => cases h
  | statement kind label opened read => cases h

/-- The same place, opened on another line. -/
def Place.relined (line : Nat) : Place → Place
  | outside => .outside
  | comment _ read => .comment line read
  | symbols list _ read => .symbols list line read
  | statement kind label _ read => .statement kind label line read

/-- A place with further words read inside it. -/
def Place.collect (ws : List Word) : Place → Place
  | outside => .outside
  | comment opened read => .comment opened (ws.reverse ++ read)
  | symbols list opened read =>
    .symbols list opened (read ++ ws.map fun w => String.ofList w.text)
  | statement kind label opened read =>
    .statement kind label opened (read ++ ws.map fun w => String.ofList w.text)

/-- Words are read one by one. -/
theorem Place.collect_cons (p : Place) (w : Word) (ws : List Word) :
    p.collect (w :: ws) = (p.collect [w]).collect ws := by
  cases p <;> simp [collect]

/-- What is read inside a place stands behind what it was left with. -/
theorem Place.left_collect {p : Place} {opener : String} {inner : List String}
    (h : p.left = some (opener, inner)) (ws : List Word) :
    (p.collect ws).left = some (opener, inner ++ ws.map fun w => String.ofList w.text) := by
  cases p with
  | outside => cases h
  | comment opened read =>
    cases h
    simp [collect, left]
  | symbols list opened read =>
    cases h
    rfl
  | statement kind label opened read =>
    cases h
    rfl

/-- Lists are closed by a full stop. -/
theorem SymbolList.closerOf_keyword (list : SymbolList) : closerOf list.keyword = "$." := by
  cases list <;> rfl

/-- Statements are closed by a full stop. -/
theorem closerOf_keyword (kind : StatementKind) : closerOf kind.keyword = "$." := by
  cases kind <;> rfl

/-- A keyword of a list is that of the list. -/
theorem SymbolList.keyword_of_ofKeyword? {word : String} {list : SymbolList}
    (h : SymbolList.ofKeyword? word = some list) : list.keyword = word := by
  simpa using List.find?_some h

/-- A keyword of a statement is that of its kind. -/
theorem keyword_of_ofKeyword? {word : String} {kind : StatementKind}
    (h : StatementKind.ofKeyword? word = some kind) : kind.keyword = word := by
  simpa using List.find?_some h

/-- The words that open something are the mark of comments and the keywords of lists
and statements. -/
theorem mem_openers_iff {word : String} : word ∈ openers ↔
    word = "$(" ∨ (∃ list : SymbolList, list.keyword = word) ∨
      ∃ kind : StatementKind, kind.keyword = word := by
  constructor
  · intro h
    simp only [openers, List.mem_cons, List.not_mem_nil, or_false] at h
    rcases h with rfl | rfl | rfl | rfl | rfl | rfl | rfl | rfl
    · exact .inl rfl
    · exact .inr (.inl ⟨.ofConstants, rfl⟩)
    · exact .inr (.inl ⟨.ofVariables, rfl⟩)
    · exact .inr (.inl ⟨.ofDisjoint, rfl⟩)
    · exact .inr (.inr ⟨.floating, rfl⟩)
    · exact .inr (.inr ⟨.essential, rfl⟩)
    · exact .inr (.inr ⟨.axiomatic, rfl⟩)
    · exact .inr (.inr ⟨.provable, rfl⟩)
  · rintro (rfl | ⟨list, rfl⟩ | ⟨kind, rfl⟩)
    · decide
    · cases list <;> decide
    · cases kind <;> decide

namespace Reader

variable {r r₁ : Reader} {w : Word}

/-- A word that opens something does so outside of everything, on any line. -/
theorem exists_place_of_opener {word : String} (hword : word ∈ openers)
    (h : r.stepOutside word = .ok r₁) :
    ∃ place : Nat → Place, (∀ line, (place line).left = some (word, [])) ∧
      (∀ line line', (place line).relined line' = place line') ∧
      ∀ line, stepOutside { r with line := line } word =
        .ok { r with line := line, place := place line } := by
  rcases mem_openers_iff.mp hword with rfl | ⟨list, rfl⟩ | ⟨kind, rfl⟩
  · exact ⟨fun line => .comment line [], fun _ => rfl, fun _ _ => rfl, fun _ => rfl⟩
  · exact ⟨fun line => .symbols list line [], fun _ => rfl, fun _ _ => rfl,
      fun _ => stepOutside_list _ list⟩
  · cases hlabel : r.label with
    | none =>
      have hnone : r.stepOutside kind.keyword = .error ⟨.unlabelled kind.keyword, r.line⟩ := by
        unfold stepOutside
        cases kind <;> exact hlabel ▸ rfl
      rw [hnone] at h
      cases h
    | some label =>
      exact ⟨fun line => .statement kind label line [], fun _ => rfl, fun _ _ => rfl,
        fun line => stepOutside_statement (r := { r with line := line, label := some label })
          rfl kind⟩

/-- Any other word outside of everything leaves the reader there, on any line. -/
theorem stepOutside_of_notMem {word : String} (hword : word ∉ openers)
    (h : r.stepOutside word = .ok r₁) : r₁.place = r.place ∧
      ∀ line, stepOutside { r with line := line } word = .ok { r₁ with line := line } := by
  have hcomment : ¬(word == "$(") = true := fun hw =>
    hword (mem_openers_iff.mpr (.inl (beq_iff_eq.mp hw)))
  have hlist : SymbolList.ofKeyword? word = none := by
    rw [Option.eq_none_iff_forall_ne_some]
    intro list hlist
    exact hword (mem_openers_iff.mpr (.inr (.inl ⟨list, SymbolList.keyword_of_ofKeyword? hlist⟩)))
  have hkind : StatementKind.ofKeyword? word = none := by
    rw [Option.eq_none_iff_forall_ne_some]
    intro kind hkind
    exact hword (mem_openers_iff.mpr (.inr (.inr ⟨kind, keyword_of_ofKeyword? hkind⟩)))
  unfold stepOutside at h ⊢
  rw [if_neg hcomment, hlist, hkind] at h
  dsimp only at h ⊢
  simp only [if_neg hcomment, hlist, hkind]
  split at h
  · rename_i hbegin
    cases h
    exact ⟨rfl, fun _ => if_pos hbegin⟩
  · rename_i hbegin
    simp only [if_neg hbegin]
    split at h
    · rename_i hend
      simp only [if_pos hend]
      split at h
      · cases h
        exact ⟨rfl, fun _ => rfl⟩
      · cases h
    · rename_i hend
      simp only [if_neg hend]
      split at h
      · cases h
      · rename_i hplain
        cases h
        exact ⟨rfl, fun _ => if_neg hplain⟩

/-- A word that does not close what is open is read inside it. -/
theorem step_of_ne_closer {opener : String} {inner : List String}
    (h : r.place.left = some (opener, inner)) (hw : String.ofList w.text ≠ closerOf opener) :
    r.step w = .ok { r with
      line := r.line + lineFeeds w.gap
      place := r.place.collect [w] } := by
  obtain ⟨db, line, label, blocks, place⟩ := r
  unfold step
  cases place with
  | outside => cases h
  | comment opened read =>
    cases h
    exact if_neg (by simpa [closerOf] using hw)
  | symbols list opened read =>
    cases h
    rw [SymbolList.closerOf_keyword] at hw
    exact if_neg (by simpa using hw)
  | statement kind label opened read =>
    cases h
    rw [closerOf_keyword] at hw
    exact if_neg (by simpa using hw)

/-- Words that do not close what is open are read inside it. -/
theorem foldlM_of_ne_closer {opener : String} {inner : List String} {ws : List Word}
    (h : r.place.left = some (opener, inner))
    (hws : ∀ w ∈ ws, String.ofList w.text ≠ closerOf opener) :
    ∃ line, ws.foldlM step r = .ok { r with line := line, place := r.place.collect ws } := by
  induction ws generalizing r inner with
  | nil =>
    refine ⟨r.line, ?_⟩
    obtain ⟨db, line, label, blocks, place⟩ := r
    cases place <;> simp [Place.collect, pure, Except.pure]
  | cons w ws ih =>
    rw [List.forall_mem_cons] at hws
    have hleft := Place.left_collect h [w]
    rw [List.foldlM_cons, step_of_ne_closer h hws.1, Place.collect_cons r.place w ws]
    generalize r.place.collect [w] = place at hleft
    exact @ih { r with line := r.line + lineFeeds w.gap, place := place } _ hleft hws.2

/-- The end of a statement leaves the reader outside. -/
theorem place_of_endStatement {kind : StatementKind} {label : Label} {opened : Nat}
    {read : List Symbol} (h : r.endStatement kind label opened read = .ok r₁) :
    r₁.place = .outside := by
  unfold endStatement at h
  split at h
  · cases h
  · cases kind <;> cases h <;> rfl

/-- Ends what is open, with the blanks before the closing word. -/
def close (r : Reader) (gap : List Char) : Except ReadError Reader :=
  match r.place with
  | .outside => .ok r
  | .comment _ read => .ok { r with
      database := r.database.addMarkup (read.reverse.flatMap (fun w => w.gap ++ w.text) ++ gap)
      place := .outside }
  | .symbols list _ read => .ok { r with
      database := r.database.addSymbols list read
      place := .outside }
  | .statement kind label opened read => r.endStatement kind label opened read

/-- The word that closes what is open ends it. -/
theorem step_of_closer {opener : String} {inner : List String}
    (h : r.place.left = some (opener, inner)) (hw : String.ofList w.text = closerOf opener) :
    r.step w = close { r with line := r.line + lineFeeds w.gap } w.gap := by
  obtain ⟨db, line, label, blocks, place⟩ := r
  unfold step close
  cases place with
  | outside => cases h
  | comment opened read =>
    cases h
    exact if_pos (by simpa [closerOf] using hw)
  | symbols list opened read =>
    cases h
    rw [SymbolList.closerOf_keyword] at hw
    exact if_pos (by simpa using hw)
  | statement kind label opened read =>
    cases h
    rw [closerOf_keyword] at hw
    exact if_pos (by simpa using hw)

/-- What is closed leaves the reader outside. -/
theorem place_of_close {gap : List Char} (h : r.close gap = .ok r₁) : r₁.place = .outside := by
  unfold close at h
  split at h
  · rename_i hplace
    cases h
    exact hplace
  · cases h
    rfl
  · cases h
    rfl
  · exact place_of_endStatement h

/-- A step changes what is open as the word says. -/
theorem left_of_step (h : r.step w = .ok r₁) :
    r₁.place.left = openAfter r.place.left (String.ofList w.text) := by
  cases hleft : r.place.left with
  | none =>
    rw [step_of_isOutside (Place.eq_outside_of_left hleft)] at h
    by_cases hword : String.ofList w.text ∈ openers
    · obtain ⟨place, hopen, _, hline⟩ := exists_place_of_opener hword h
      obtain rfl := Except.ok.inj (h.symm.trans (hline _))
      exact (hopen _).trans (if_pos hword).symm
    · rw [(stepOutside_of_notMem hword h).1]
      exact hleft.trans (if_neg hword).symm
  | some p =>
    obtain ⟨opener, inner⟩ := p
    by_cases hw : String.ofList w.text = closerOf opener
    · rw [step_of_closer hleft hw] at h
      rw [place_of_close h, openAfter, if_pos hw]
      rfl
    · rw [step_of_ne_closer hleft hw] at h
      cases h
      rw [Place.left_collect hleft, openAfter, if_neg hw]
      rfl

/-- What is open behind words is told from the words. -/
theorem left_of_foldlM {ws : List Word} (h : ws.foldlM step r = .ok r₁) :
    r₁.place.left = (ws.map fun w => String.ofList w.text).foldl openAfter r.place.left := by
  induction ws generalizing r with
  | nil =>
    cases h
    rfl
  | cons w ws ih =>
    obtain ⟨next, hstep, hrest⟩ := foldlM_cons_eq_ok_iff.mp h
    rw [List.map_cons, List.foldl_cons, ← left_of_step hstep]
    exact ih hrest

end Reader

end Typeset.Database

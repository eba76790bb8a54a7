import Mathlib.Data.List.Induction
import Typeset.Proofs.Database.Comments
import Typeset.Proofs.Database.Markup

/-!
# Typesetting comments decode what they encode

A comment that defines markup may stand wherever a source has nothing open. The reader
never looks at the markup of symbols, so it goes on behind the comment as before it, and
what was defined is added to. Of several definitions of a symbol the last one counts.
-/

namespace Typeset.Database

open Text

/-- Defines the markup of symbols, one after the other. -/
def defineAll (t : Table Symbol String) (ds : List SymbolDefinition) : Table Symbol String :=
  ds.foldl (fun t d => t.set d.symbol d.markup) t

/-- Definitions are made in order. -/
theorem defineAll_append (t : Table Symbol String) (ds ds' : List SymbolDefinition) :
    defineAll t (ds ++ ds') = defineAll (defineAll t ds) ds' := List.foldl_append

/-- The last definition of a symbol counts. -/
theorem get?_defineAll (t : Table Symbol String) (ds : List SymbolDefinition) (s : Symbol) :
    (defineAll t ds).get? s =
      ((ds.filter (·.symbol = s)).getLast?.map (·.markup)).or (t.get? s) := by
  induction ds using List.reverseRecOn with
  | nil => rfl
  | append_singleton ds d ih =>
    have hset : defineAll t (ds ++ [d]) = (defineAll t ds).set d.symbol d.markup :=
      defineAll_append t ds [d]
    rw [hset, Table.get?_set, List.filter_append]
    by_cases hs : s = d.symbol
    · have hlast : [d].filter (·.symbol = s) = [d] :=
        List.filter_cons_of_pos (by simpa using hs.symm)
      rw [if_pos hs, hlast, List.getLast?_concat]
      rfl
    · have hnone : [d].filter (·.symbol = s) = [] :=
        List.filter_cons_of_neg (by simpa using Ne.symm hs)
      rw [if_neg hs, hnone, List.append_nil, ih]

/-- Where nothing is defined in the end nothing was defined. -/
theorem of_defineAll_eq_empty {t : Table Symbol String} {ds : List SymbolDefinition}
    (h : defineAll t ds = .empty) : t = .empty ∧ ds = [] := by
  obtain rfl : ds = [] := by
    rcases List.eq_nil_or_concat ds with rfl | ⟨ds, d, rfl⟩
    · rfl
    · have hlast := get?_defineAll t (ds.concat d) d.symbol
      rw [h, List.concat_eq_append, List.filter_append,
        List.filter_cons_of_pos (by simp), List.filter_nil, List.getLast?_concat] at hlast
      cases hlast
  exact ⟨h, rfl⟩

/-- The database with other markup. -/
def withMarkup (db : Database) (t : Table Symbol String) : Database := { db with symbolMarkup := t }

/-- The markup of symbols does not matter to a typecode. -/
theorem addTypecode_withMarkup (db : Database) (tc : Typecode) (t : Table Symbol String) :
    (db.withMarkup t).addTypecode tc = (db.addTypecode tc).withMarkup t := by
  unfold addTypecode withMarkup
  dsimp only
  split <;> rfl

/-- The markup of symbols does not matter to a statement. -/
theorem addStatement_withMarkup (db : Database) (s : Statement) (t : Table Symbol String) :
    (db.withMarkup t).addStatement s = (db.addStatement s).map (·.withMarkup t) := by
  obtain ⟨label, kind, math⟩ := s
  cases math with
  | nil => rfl
  | cons tc body =>
    cases kind with
    | floating =>
      rcases body with _ | ⟨v, _ | ⟨v', rest⟩⟩
      · rfl
      · exact congrArg Except.ok (addTypecode_withMarkup { db with
          statements := db.statements.set label ⟨label, .floating, [tc, v]⟩
          floatings := db.floatings.set label ⟨label, tc, v⟩
          grammar := db.grammar.addVariable ⟨label, tc, v⟩ } tc t)
      · rfl
    | essential => rfl
    | axiomatic =>
      unfold addStatement
      dsimp only
      by_cases hprovable : (tc == db.provable) = true
      · rw [if_pos hprovable]
        exact if_pos hprovable
      · rw [if_neg hprovable]
        exact (if_neg hprovable).trans (congrArg Except.ok (addTypecode_withMarkup { db with
          statements := db.statements.set label ⟨label, .axiomatic, tc :: body⟩
          grammar := db.grammar.addRule tc ⟨label, body⟩ } tc t))
    | provable => rfl

namespace Reader

variable {r r₁ : Reader}

/-- The reader with other markup. -/
def withMarkup (r : Reader) (t : Table Symbol String) : Reader :=
  { r with database := r.database.withMarkup t }

/-- The markup of symbols does not matter outside of everything. -/
theorem stepOutside_withMarkup (r : Reader) (word : String) (t : Table Symbol String) :
    (r.withMarkup t).stepOutside word = (r.stepOutside word).map (·.withMarkup t) := by
  unfold stepOutside
  split
  · rfl
  · split
    · rfl
    · split
      · dsimp only [withMarkup]
        split <;> rfl
      · dsimp only [withMarkup]
        split
        · rfl
        · split <;> rfl
        · split <;> rfl

/-- The markup of symbols does not matter to what is closed; a comment adds to it. -/
theorem exists_close_withMarkup {gap : List Char} (h : r.close gap = .ok r₁) :
    ∃ ds, ∀ t, (r.withMarkup t).close gap = .ok (r₁.withMarkup (defineAll t ds)) := by
  obtain ⟨db, line, label, blocks, place⟩ := r
  unfold close at h ⊢
  cases place with
  | outside =>
    cases h
    exact ⟨[], fun _ => rfl⟩
  | comment opened read =>
    cases h
    exact ⟨definitionsOfComment (read.reverse.flatMap (fun w => w.gap ++ w.text) ++ gap),
      fun _ => rfl⟩
  | symbols list opened read =>
    cases h
    refine ⟨[], fun t => ?_⟩
    cases list <;> rfl
  | statement kind label opened read =>
    refine ⟨[], fun t => ?_⟩
    unfold endStatement at h ⊢
    dsimp only [withMarkup] at h ⊢
    rw [addStatement_withMarkup]
    cases hadd : db.addStatement ⟨label, kind, read.takeWhile (· != "$=")⟩ with
    | error e =>
      rw [hadd] at h
      cases h
    | ok db' =>
      rw [hadd] at h
      cases kind <;> cases h <;> rfl

/-- The markup of symbols does not matter to a word; a word adds to it. -/
theorem exists_step_withMarkup {w : Word} (h : r.step w = .ok r₁) :
    ∃ ds, ∀ t, (r.withMarkup t).step w = .ok (r₁.withMarkup (defineAll t ds)) := by
  cases hleft : r.place.left with
  | none =>
    have hplace : r.IsOutside := Place.eq_outside_of_left hleft
    rw [step_of_isOutside hplace] at h
    refine ⟨[], fun t => ?_⟩
    have hstep := stepOutside_withMarkup { r with line := r.line + lineFeeds w.gap }
      (String.ofList w.text) t
    rw [h] at hstep
    exact (step_of_isOutside (r := r.withMarkup t) hplace w).trans hstep
  | some p =>
    obtain ⟨opener, inner⟩ := p
    by_cases hw : String.ofList w.text = closerOf opener
    · rw [step_of_closer hleft hw] at h
      obtain ⟨ds, hds⟩ := exists_close_withMarkup h
      exact ⟨ds, fun t => (step_of_closer (r := r.withMarkup t) hleft hw).trans (hds t)⟩
    · rw [step_of_ne_closer hleft hw] at h
      cases h
      exact ⟨[], fun t => step_of_ne_closer (r := r.withMarkup t) hleft hw⟩

/-- The markup of symbols does not matter to words; words add to it. -/
theorem exists_foldlM_withMarkup {ws : List Word} (h : ws.foldlM step r = .ok r₁) :
    ∃ ds, ∀ t, ws.foldlM step (r.withMarkup t) = .ok (r₁.withMarkup (defineAll t ds)) := by
  induction ws generalizing r with
  | nil =>
    cases h
    exact ⟨[], fun t => rfl⟩
  | cons w ws ih =>
    obtain ⟨next, hstep, hrest⟩ := foldlM_cons_eq_ok_iff.mp h
    obtain ⟨ds, hds⟩ := exists_step_withMarkup hstep
    obtain ⟨ds', hds'⟩ := ih hrest
    refine ⟨ds ++ ds', fun t => foldlM_cons_eq_ok_iff.mpr ⟨_, hds t, ?_⟩⟩
    rw [defineAll_append]
    exact hds' _

/-- The markup of symbols does not matter to the end of a source. -/
theorem finish_withMarkup {line : Nat} {db : Database} (h : r.finish line = .ok db)
    (t : Table Symbol String) : (r.withMarkup t).finish line = .ok (db.withMarkup t) := by
  obtain ⟨_, _, label, blocks, place⟩ := r
  unfold finish at h ⊢
  cases place with
  | outside =>
    dsimp only [withMarkup] at h ⊢
    split at h
    · cases h
    · rename_i hclosed
      cases h
      exact if_neg hclosed
  | comment opened read => cases h
  | symbols list opened read => cases h
  | statement kind label opened read => cases h

end Reader

/-- What stands between the marks of a comment that defines markup. -/
theorem MarkupComment.isInside (m : MarkupComment) : IsInside m.inside where
  ne_nil := List.append_ne_nil_of_left_ne_nil m.before.ne_nil _
  starts := m.before.stopsAt (fun c hc => by rw [hc]; rfl) _
  ends := by
    have hstop := m.after.reverse.stopsAt (q := (!isBlank ·)) (fun c hc => by rw [hc]; rfl)
      (m.before.chars ++ '$' :: 't' :: writtenChars m.written).reverse
    simpa [Stretch.reverse, MarkupComment.inside] using hstop
  ne_close := by
    intro w hw hclose
    have htext : w.text = ['$', ')'] := by
      have hlist := congrArg String.toList hclose
      rwa [String.toList_ofList] at hlist
    exact m.not_isInfix_inside (htext ▸ isInfix_of_mem_words hw)

/-- Typesetting comments decode what they encode. Between two words of a source that is
accepted and defines no markup a comment that does may be put where nothing is open. The
source is accepted then too and declares the same, and the markup of every symbol is what
its last definition in the comment joins, whatever the strings hold and whichever quotes
they are written in. A symbol that is not defined in the comment has none. -/
theorem markup_is_decoded {provable logic : Typecode} {front back : List Char} {db : Database}
    (m : MarkupComment) (hfront : StopsAt (!isBlank ·) front.reverse)
    (hback : StopsAt (!isBlank ·) back) (hplace : openBehind (tokens front) = none)
    (hread : read provable logic (front ++ back) = .ok db) (hnone : db.symbolMarkup = .empty) :
    ∃ markup, read provable logic (front ++ (m.chars ++ back)) =
        .ok { db with symbolMarkup := markup } ∧
      ∀ s, markup.get? s = (m.definitions.filter (·.symbol = s)).getLast?.map (·.markup) := by
  obtain ⟨gap, _, _, hsplit⟩ := exists_words_append front
  obtain ⟨inner, hinner, hcomment⟩ := m.isInside.exists_words
  have hold : words (front ++ back) = words front ++ widen gap (words back) :=
    hsplit back (.inl hfront)
  have hnew : words (front ++ (m.chars ++ back)) = words front ++
      ((⟨gap ++ [], "$(".toList⟩ :: (words m.inside ++ [⟨inner, "$)".toList⟩])) ++
        widen [] (words back)) := by
    have hwords : words (m.chars ++ back) = _ := hcomment back hback
    rw [hsplit _ (.inl hfront), hwords]
    cases words back <;> simp [widen]
  obtain ⟨last, hfold, hfinish⟩ := read_eq_ok_iff.mp hread
  rw [hold] at hfold
  obtain ⟨r, hreach, hrest⟩ := Reader.foldlM_append_eq_ok_iff.mp hfold
  have houtside : r.IsOutside :=
    Place.eq_outside_of_left ((Reader.left_of_foldlM hreach).trans hplace)
  obtain ⟨line, hadded⟩ := m.isInside.exists_foldlM_of_outside houtside (gap ++ []) hinner
  rw [addMarkup, m.definitionsOfComment_inside] at hadded
  -- No definition is made before the comment, and none behind it.
  obtain ⟨ds, hback⟩ := Reader.exists_foldlM_withMarkup hrest
  have hmarkup : last = last.withMarkup (defineAll r.database.symbolMarkup ds) :=
    Except.ok.inj (hrest.symm.trans (hback r.database.symbolMarkup))
  rw [Reader.database_finish hfinish, hmarkup] at hnone
  obtain ⟨hbefore, rfl⟩ := of_defineAll_eq_empty hnone
  have halike : (r.withMarkup (defineAll r.database.symbolMarkup m.definitions)).Alike
      { r with
        database := { r.database with
          symbolMarkup := defineAll r.database.symbolMarkup m.definitions }
        line := line } := ⟨rfl, rfl, rfl, .refl _⟩
  have hopen : ¬(r.withMarkup (defineAll r.database.symbolMarkup m.definitions)).IsInComment := by
    rintro ⟨opened, read, hplace⟩
    cases houtside.symm.trans hplace
  obtain ⟨last', hrest', hend⟩ := halike.foldlM_widen hopen (hback _)
  refine ⟨defineAll r.database.symbolMarkup m.definitions, ?_, ?_⟩
  · refine read_eq_ok_iff.mpr ⟨last', ?_, hend.finish (Reader.finish_withMarkup hfinish _) _⟩
    rw [hnew]
    exact Reader.foldlM_append_eq_ok_iff.mpr ⟨r, hreach,
      Reader.foldlM_append_eq_ok_iff.mpr ⟨_, hadded, hrest'⟩⟩
  · intro s
    rw [get?_defineAll, hbefore]
    exact Option.or_none

/-- A single blank. -/
def sampleBlank : Stretch isBlank := .single ' ' rfl

/-- A plus sign with a blank on either side. -/
def sampleJoint : Joint :=
  ⟨⟨[' '], List.forall_mem_singleton.mpr rfl⟩, ⟨[' '], List.forall_mem_singleton.mpr rfl⟩⟩

/-- A definition of the markup of a symbol by two strings, written with single blanks. -/
def sampleDefinition (symbol first second : QuotedText) : WrittenDefinition where
  afterKeyword := sampleBlank
  symbol := symbol
  afterSymbol := sampleBlank
  beforeValue := sampleBlank
  first := first
  more := [(sampleJoint, second)]
  beforeEnd := ⟨[], List.forall_mem_nil _⟩

/-- A comment that defines the markup of a symbol twice. Its strings hold quotes, blanks
and semicolons, one is empty, and one reads like a definition of another symbol. -/
def sampleComment : MarkupComment where
  before := sampleBlank
  written :=
    [(sampleBlank, sampleDefinition ⟨'"', rfl, "x".toList, by decide⟩
        ⟨'"', rfl, "<i>; althtmldef 'y' as 'Y';".toList, by decide⟩
        ⟨'\'', rfl, [], by decide⟩),
      (sampleBlank, sampleDefinition ⟨'\'', rfl, ['+', '\''], by decide⟩
        ⟨'\'', rfl, "it's + \"\n".toList, by decide⟩
        ⟨'"', rfl, ['"'], by decide⟩),
      (sampleBlank, sampleDefinition ⟨'\'', rfl, "x".toList, by decide⟩
        ⟨'\'', rfl, "<b>".toList, by decide⟩
        ⟨'"', rfl, "x</b>".toList, by decide⟩)]
  after := sampleBlank

/-- The comment in the small source: the first symbol has the markup of its second
definition, and the other variable has none. -/
theorem markup_is_decoded_sample :
    read "|-" "w" ("$c c w + = $. $v x y $. ".toList ++
        " cx $f c x $. cy $f c y $. add $a c x + y $. eq $a w x = y $.".toList) = .ok sample ∧
      ∃ markup, read "|-" "w" ("$c c w + = $. $v x y $. ".toList ++ (sampleComment.chars ++
          " cx $f c x $. cy $f c y $. add $a c x + y $. eq $a w x = y $.".toList)) =
            .ok { sample with symbolMarkup := markup } ∧
        markup.get? "x" = some "<b>x</b>" ∧ markup.get? "+'" = some "it's + \"\n\"" ∧
          markup.get? "y" = none := by
  have hread : read "|-" "w" ("$c c w + = $. $v x y $. ".toList ++
      " cx $f c x $. cy $f c y $. add $a c x + y $. eq $a w x = y $.".toList) = .ok sample := by
    decide +kernel
  obtain ⟨markup, hread', hmarkup⟩ := markup_is_decoded sampleComment
    (stopsAt_cons.mpr rfl) (stopsAt_cons.mpr rfl) (by decide +kernel) hread rfl
  refine ⟨hread, markup, hread', ?_, ?_, ?_⟩
  · rw [hmarkup]
    decide +kernel
  · rw [hmarkup]
    decide +kernel
  · rw [hmarkup]
    decide +kernel

end Typeset.Database

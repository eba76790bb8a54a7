import Typeset.Proofs.Database.Places
import Typeset.Proofs.Text.Words

/-!
# Comments say nothing

A comment that is put between two words of a source is passed over where the
reader looks for comments, which is outside of all lists and statements. Inside a
list or a statement it looks for the closing word alone. There the words of a
comment are words like any others, and they do no harm only where words do not
matter: in a list of variables that are kept apart, and behind the mark that a
proof begins with. Where the comment stands is told from the words before it by
what they leave open, with no regard to what they declare.
-/

namespace Typeset.Database

open Text

/-- The words of a text as strings. -/
def tokens (s : List Char) : List String := (words s).map fun w => String.ofList w.text

/-- A comment that defines no markup, given by the text between its marks. Blanks set
it off from the marks, and no word of it is the closing mark. -/
structure Note where
  /-- The text between the marks. -/
  inside : List Char
  /-- There is a blank at least. -/
  ne_nil : inside ≠ []
  /-- It begins with a blank. -/
  starts : StopsAt (!isBlank ·) inside
  /-- It ends with a blank. -/
  ends : StopsAt (!isBlank ·) inside.reverse
  /-- The closing mark is none of its words. -/
  ne_close : ∀ w ∈ words inside, String.ofList w.text ≠ "$)"
  /-- It does not begin like a comment that defines markup. -/
  plain : ¬"$t".toList <+: trimStart inside

/-- The comment with its marks. -/
def Note.chars (n : Note) : List Char := "$(".toList ++ (n.inside ++ "$)".toList)

/-- A comment is not noticed where nothing is open. It is not noticed either among
variables that are kept apart and in a proof, unless a word of it closes these. -/
def Note.UnnoticedIn (n : Note) (place : Option (String × List String)) : Prop :=
  ∀ p ∈ place, "$." ∉ tokens n.inside ∧
    (p.1 = "$d" ∨ p.1 ∈ ["$f", "$e", "$a", "$p"] ∧ "$=" ∈ p.2)

/-- Places that the reader goes on from in the same way. -/
inductive Place.Alike : Place → Place → Prop
  /-- Outside of everything. -/
  | outside : Alike .outside .outside
  /-- In comments with the same words. -/
  | comment (opened opened' : Nat) (read : List Word) :
    Alike (.comment opened read) (.comment opened' read)
  /-- In lists with the same symbols. -/
  | symbols (list : SymbolList) (opened opened' : Nat) (read : List Symbol) :
    Alike (.symbols list opened read) (.symbols list opened' read)
  /-- In lists of variables that are kept apart. -/
  | disjoint (opened opened' : Nat) (read read' : List Symbol) :
    Alike (.symbols .ofDisjoint opened read) (.symbols .ofDisjoint opened' read')
  /-- In statements with the same words. -/
  | statement (kind : StatementKind) (label : Label) (opened opened' : Nat)
    (read : List Symbol) : Alike (.statement kind label opened read)
      (.statement kind label opened' read)
  /-- In the proofs of statements with the same math. -/
  | proof (kind : StatementKind) (label : Label) (opened opened' : Nat)
    (math more more' : List Symbol) : Alike (.statement kind label opened (math ++ "$=" :: more))
      (.statement kind label opened' (math ++ "$=" :: more'))

/-- Readers that go on in the same way: they differ in lines, and in words that say
nothing. -/
structure Reader.Alike (r r' : Reader) : Prop where
  /-- The databases are the same. -/
  database_eq : r'.database = r.database
  /-- The labels that wait are the same. -/
  label_eq : r'.label = r.label
  /-- The open blocks are the same. -/
  blocks_eq : r'.blocks = r.blocks
  /-- They go on from their places in the same way. -/
  place : r.place.Alike r'.place

/-- A place is like itself. -/
theorem Place.Alike.refl (p : Place) : p.Alike p := by
  cases p with
  | outside => exact .outside
  | comment opened read => exact .comment opened opened read
  | symbols list opened read => exact .symbols list opened opened read
  | statement kind label opened read => exact .statement kind label opened opened read

/-- Where nothing is open in one of two places that are alike, nothing is in the
other. -/
theorem Place.Alike.left_eq_none {p p' : Place} (h : p.Alike p') (hleft : p.left = none) :
    p'.left = none := by
  cases h with
  | outside => rfl
  | comment => cases hleft
  | symbols => cases hleft
  | disjoint => cases hleft
  | statement => cases hleft
  | proof => cases hleft

/-- Places that are alike were opened by the same word. -/
theorem Place.Alike.exists_left {p p' : Place} (h : p.Alike p') {opener : String}
    {inner : List String} (hleft : p.left = some (opener, inner)) :
    ∃ inner', p'.left = some (opener, inner') := by
  cases h with
  | outside => cases hleft
  | comment => cases hleft; exact ⟨_, rfl⟩
  | symbols => cases hleft; exact ⟨_, rfl⟩
  | disjoint => cases hleft; exact ⟨_, rfl⟩
  | statement => cases hleft; exact ⟨_, rfl⟩
  | proof => cases hleft; exact ⟨_, rfl⟩

/-- A place is like the same place opened on another line. -/
theorem Place.alike_relined (p : Place) (line : Nat) : p.Alike (p.relined line) := by
  cases p with
  | outside => exact .outside
  | comment opened read => exact .comment opened line read
  | symbols list opened read => exact .symbols list opened line read
  | statement kind label opened read => exact .statement kind label opened line read

/-- Places that are alike stay alike when a word is read inside of both. Its gap matters
inside a comment alone. -/
theorem Place.Alike.collect {p p' : Place} (h : p.Alike p') {w w' : Word}
    (htext : w'.text = w.text)
    (hgap : (∃ opened read, p = .comment opened read) → w'.gap = w.gap) :
    (p.collect [w]).Alike (p'.collect [w']) := by
  cases h with
  | outside => exact .outside
  | comment opened opened' read =>
    obtain rfl : w' = w := by
      obtain ⟨gap, text⟩ := w
      obtain ⟨gap', text'⟩ := w'
      obtain rfl : text' = text := htext
      obtain rfl : gap' = gap := hgap ⟨opened, read, rfl⟩
      rfl
    exact .comment _ _ _
  | symbols list opened opened' read =>
    simp only [Place.collect, List.map_cons, List.map_nil, htext]
    exact .symbols _ _ _ _
  | disjoint opened opened' read read' => exact .disjoint _ _ _ _
  | statement kind label opened opened' read =>
    simp only [Place.collect, List.map_cons, List.map_nil, htext]
    exact .statement _ _ _ _ _
  | proof kind label opened opened' math more more' =>
    rw [Place.collect, Place.collect, List.append_assoc, List.append_assoc]
    exact .proof _ _ _ _ math _ _

/-- The math of a statement ends where its proof begins. -/
theorem takeWhile_append_proof (math more more' : List Symbol) :
    (math ++ "$=" :: more').takeWhile (· != "$=") =
      (math ++ "$=" :: more).takeWhile (· != "$=") := by
  induction math with
  | nil => rfl
  | cons s math ih => rw [List.cons_append, List.cons_append, List.takeWhile_cons,
      List.takeWhile_cons, ih]

namespace Reader

variable {r r' r₁ : Reader} {w w' : Word}

/-- Statements with the same math end alike. -/
theorem exists_alike_of_endStatement {kind : StatementKind} {label : Label}
    {opened opened' : Nat} {read read' : List Symbol} (hdb : r'.database = r.database)
    (hblocks : r'.blocks = r.blocks)
    (hmath : read'.takeWhile (· != "$=") = read.takeWhile (· != "$="))
    (h : r.endStatement kind label opened read = .ok r₁) :
    ∃ r₁', r'.endStatement kind label opened' read' = .ok r₁' ∧ r₁.Alike r₁' := by
  unfold endStatement at h ⊢
  rw [hdb, hmath]
  split at h
  · cases h
  · rename_i db hdb
    rw [hdb]
    dsimp only at h ⊢
    cases kind with
    | floating =>
      cases h
      exact ⟨_, rfl, rfl, rfl, hblocks, .outside⟩
    | essential =>
      cases h
      exact ⟨_, rfl, rfl, rfl, congrArg (addHypothesis label) hblocks, .outside⟩
    | axiomatic =>
      cases h
      refine ⟨_, rfl, ?_, rfl, hblocks, .outside⟩
      unfold inScope
      rw [hblocks]
    | provable =>
      cases h
      refine ⟨_, rfl, ?_, rfl, hblocks, .outside⟩
      unfold inScope
      rw [hblocks]

/-- What is open in readers that are alike is closed alike. The blanks before the
closing word matter inside a comment alone. -/
theorem Alike.close {gap gap' : List Char} (h : r.Alike r')
    (hgap : r.IsInComment → gap' = gap) (hclose : r.close gap = .ok r₁) :
    ∃ r₁', r'.close gap' = .ok r₁' ∧ r₁.Alike r₁' := by
  obtain ⟨db, line, label, blocks, place⟩ := r
  obtain ⟨db', line', label', blocks', place'⟩ := r'
  obtain ⟨hdb, hlabel, hblocks, hplace⟩ := h
  dsimp only at hdb hlabel hblocks hplace
  subst hdb hlabel hblocks
  unfold Reader.close at hclose ⊢
  cases hplace with
  | outside =>
    cases hclose
    exact ⟨_, rfl, rfl, rfl, rfl, .outside⟩
  | comment opened opened' read =>
    -- The text of a comment reaches up to its closing mark, so these blanks belong to it.
    obtain rfl : gap' = gap := hgap ⟨opened, read, rfl⟩
    cases hclose
    exact ⟨_, rfl, rfl, rfl, rfl, .outside⟩
  | symbols list opened opened' read =>
    cases hclose
    exact ⟨_, rfl, rfl, rfl, rfl, .outside⟩
  | disjoint opened opened' read read' =>
    cases hclose
    exact ⟨_, rfl, rfl, rfl, rfl, .outside⟩
  | statement kind label opened opened' read =>
    apply exists_alike_of_endStatement _ _ rfl hclose <;> rfl
  | proof kind label opened opened' math more more' =>
    have hmath := takeWhile_append_proof math more more'
    apply exists_alike_of_endStatement _ _ hmath hclose <;> rfl

/-- Outside of everything readers that are alike take a word alike, on whatever lines. -/
theorem Alike.stepOutside {word : String} (h : r.Alike r') (hhere : r.IsOutside)
    (hthere : r'.IsOutside) (line line' : Nat)
    (hstep : Reader.stepOutside { r with line := line } word = .ok r₁) :
    ∃ r₁', Reader.stepOutside { r' with line := line' } word = .ok r₁' ∧ r₁.Alike r₁' := by
  obtain ⟨db, _, label, blocks, place⟩ := r
  obtain ⟨db', _, label', blocks', place'⟩ := r'
  obtain ⟨hdb, hlabel, hblocks, -⟩ := h
  dsimp only at hdb hlabel hblocks
  subst hdb hlabel hblocks
  obtain rfl : place = .outside := hhere
  obtain rfl : place' = .outside := hthere
  by_cases hword : word ∈ openers
  · obtain ⟨place, _, hrelined, hline⟩ := exists_place_of_opener hword hstep
    obtain rfl := Except.ok.inj (hstep.symm.trans (hline line))
    refine ⟨_, hline line', rfl, rfl, rfl, ?_⟩
    rw [← hrelined line line']
    exact Place.alike_relined _ _
  · obtain ⟨_, hline⟩ := stepOutside_of_notMem hword hstep
    exact ⟨_, hline line', rfl, rfl, rfl, .refl _⟩

/-- Readers that are alike take a word alike. Its gap matters inside a comment alone. -/
theorem Alike.step (h : r.Alike r') (htext : w'.text = w.text)
    (hgap : r.IsInComment → w'.gap = w.gap) (hstep : r.step w = .ok r₁) :
    ∃ r₁', r'.step w' = .ok r₁' ∧ r₁.Alike r₁' := by
  cases hleft : r.place.left with
  | none =>
    have hhere : r.IsOutside := Place.eq_outside_of_left hleft
    have hthere : r'.IsOutside := Place.eq_outside_of_left (h.place.left_eq_none hleft)
    rw [step_of_isOutside hhere] at hstep
    rw [step_of_isOutside hthere, htext]
    exact h.stepOutside hhere hthere _ _ hstep
  | some p =>
    obtain ⟨opener, inner⟩ := p
    obtain ⟨inner', hleft'⟩ := h.place.exists_left hleft
    by_cases hw : String.ofList w.text = closerOf opener
    · rw [step_of_closer hleft hw] at hstep
      rw [step_of_closer hleft' (by rw [htext, hw])]
      have hlined : Alike { r with line := r.line + lineFeeds w.gap }
          { r' with line := r'.line + lineFeeds w'.gap } := ⟨h.1, h.2, h.3, h.4⟩
      exact hlined.close hgap hstep
    · rw [step_of_ne_closer hleft hw] at hstep
      cases hstep
      exact ⟨_, step_of_ne_closer hleft' (by rwa [htext]), h.1, h.2, h.3,
        h.place.collect htext hgap⟩

/-- Readers that are alike stay alike over the same words. -/
theorem Alike.foldlM {ws : List Word} (h : r.Alike r')
    (hfold : ws.foldlM Reader.step r = .ok r₁) :
    ∃ r₁', ws.foldlM Reader.step r' = .ok r₁' ∧ r₁.Alike r₁' := by
  induction ws generalizing r r' with
  | nil =>
    cases hfold
    exact ⟨r', rfl, h⟩
  | cons w ws ih =>
    obtain ⟨next, hstep, hrest⟩ := foldlM_cons_eq_ok_iff.mp hfold
    obtain ⟨next', hstep', halike⟩ := h.step rfl (fun _ => rfl) hstep
    obtain ⟨r₁', hrest', hlast⟩ := ih halike hrest
    exact ⟨r₁', foldlM_cons_eq_ok_iff.mpr ⟨next', hstep', hrest'⟩, hlast⟩

/-- Outside of comments the blanks before the words do not matter. -/
theorem Alike.foldlM_widen {ws : List Word} {gap gap' : List Char} (h : r.Alike r')
    (hcomment : ¬r.IsInComment) (hfold : (widen gap ws).foldlM Reader.step r = .ok r₁) :
    ∃ r₁', (widen gap' ws).foldlM Reader.step r' = .ok r₁' ∧ r₁.Alike r₁' := by
  cases ws with
  | nil => exact h.foldlM hfold
  | cons w ws =>
    have htext :
        (⟨gap' ++ w.gap, w.text⟩ : Word).text = (⟨gap ++ w.gap, w.text⟩ : Word).text := rfl
    obtain ⟨next, hstep, hrest⟩ := foldlM_cons_eq_ok_iff.mp hfold
    obtain ⟨next', hstep', halike⟩ := h.step htext (fun hin => absurd hin hcomment) hstep
    obtain ⟨r₁', hrest', hlast⟩ := halike.foldlM hrest
    exact ⟨r₁', foldlM_cons_eq_ok_iff.mpr ⟨next', hstep', hrest'⟩, hlast⟩

/-- Readers that are alike end with the same database. -/
theorem Alike.finish {line : Nat} {db : Database} (h : r.Alike r')
    (hok : r.finish line = .ok db) (line' : Nat) : r'.finish line' = .ok db := by
  obtain ⟨database, _, label, blocks, place⟩ := r
  obtain ⟨database', _, label', blocks', place'⟩ := r'
  obtain ⟨hdb, hlabel, hblocks, hplace⟩ := h
  dsimp only at hdb hlabel hblocks hplace
  subst hdb hlabel hblocks
  cases hplace with
  | outside =>
    unfold Reader.finish at hok ⊢
    dsimp only at hok ⊢
    split at hok
    · cases hok
    · rename_i hclosed
      rw [if_neg hclosed]
      exact hok
  | comment opened opened' read => cases hok
  | symbols list opened opened' read => cases hok
  | disjoint opened opened' read read' => cases hok
  | statement kind label opened opened' read => cases hok
  | proof kind label opened opened' math more more' => cases hok

end Reader

/-- The text between the marks of a comment: blanks set it off from the marks, and no
word of it is the closing mark. -/
structure IsInside (inside : List Char) : Prop where
  /-- There is a blank at least. -/
  ne_nil : inside ≠ []
  /-- It begins with a blank. -/
  starts : StopsAt (!isBlank ·) inside
  /-- It ends with a blank. -/
  ends : StopsAt (!isBlank ·) inside.reverse
  /-- The closing mark is none of its words. -/
  ne_close : ∀ w ∈ words inside, String.ofList w.text ≠ "$)"

namespace IsInside

variable {inside : List Char} {r : Reader}

/-- The words of a comment are its marks and the words between them, and all of the
text between them is there. -/
theorem exists_words (h : IsInside inside) : ∃ after : List Char,
    inside = (words inside).flatMap (fun w => w.gap ++ w.text) ++ after ∧
      ∀ rest, StopsAt (!isBlank ·) rest → words ("$(".toList ++ (inside ++ "$)".toList) ++ rest) =
        ⟨[], "$(".toList⟩ :: (words inside ++ ⟨after, "$)".toList⟩ :: words rest) := by
  obtain ⟨after, _, htext, hwords⟩ := exists_words_append inside
  refine ⟨after, htext, fun rest hrest => ?_⟩
  have hclose : words ("$)".toList ++ rest) = ⟨[], "$)".toList⟩ :: words rest :=
    words_cons [] "$)".toList (by simp) (by simp [isBlank]) (by decide) hrest
  have hinside := hwords ("$)".toList ++ rest) (.inl h.ends)
  rw [hclose, widen, List.append_nil] at hinside
  have hstop : StopsAt (!isBlank ·) (inside ++ ("$)".toList ++ rest)) :=
    (stopsAt_append_of_ne_nil h.ne_nil _).mpr h.starts
  have hopen := words_cons [] "$(".toList (by simp) (by simp [isBlank]) (by decide) hstop
  rw [hinside] at hopen
  rw [List.append_assoc, List.append_assoc]
  exact hopen

/-- Behind its opening mark a comment is read up to its closing mark, and what it defines
is added. -/
theorem exists_foldlM_of_comment (h : IsInside inside) {opened : Nat} {after : List Char}
    (hplace : r.place = .comment opened [])
    (hafter : inside = (words inside).flatMap (fun w => w.gap ++ w.text) ++ after) :
    ∃ line, (words inside ++ [(⟨after, "$)".toList⟩ : Word)]).foldlM Reader.step r =
      .ok { r with
        database := r.database.addMarkup inside
        line := line
        place := .outside } := by
  have hleft : r.place.left = some ("$(", []) := by
    rw [hplace]
    rfl
  obtain ⟨line, hinside⟩ := Reader.foldlM_of_ne_closer hleft h.ne_close
  refine ⟨line + lineFeeds after, ?_⟩
  have hread : inside =
      ((words inside).reverse ++ []).reverse.flatMap (fun w : Word => w.gap ++ w.text) ++
        after := by
    rw [List.append_nil, List.reverse_reverse]
    exact hafter
  have hend : Reader.step { r with
        line := line
        place := .comment opened ((words inside).reverse ++ []) } ⟨after, "$)".toList⟩ =
      .ok { r with
        database := r.database.addMarkup inside
        line := line + lineFeeds after
        place := .outside } := by
    conv => rhs; rw [hread]
    rfl
  rw [List.foldlM_append, hinside, hplace]
  exact (List.foldlM_cons ..).trans (congrArg (· >>= _) hend)

/-- Outside of everything a comment is read, and what it defines is added. -/
theorem exists_foldlM_of_outside (h : IsInside inside) (hplace : r.IsOutside) (gap : List Char)
    {after : List Char}
    (hafter : inside = (words inside).flatMap (fun w => w.gap ++ w.text) ++ after) :
    ∃ line, (⟨gap, "$(".toList⟩ :: (words inside ++ [(⟨after, "$)".toList⟩ : Word)])).foldlM
        Reader.step r =
      .ok { r with
        database := r.database.addMarkup inside
        line := line } := by
  obtain ⟨line, hcomment⟩ := h.exists_foldlM_of_comment (r := { r with
    line := r.line + lineFeeds gap
    place := .comment (r.line + lineFeeds gap) [] }) rfl hafter
  have hopen : r.step ⟨gap, "$(".toList⟩ = .ok { r with
      line := r.line + lineFeeds gap
      place := .comment (r.line + lineFeeds gap) [] } := by
    rw [Reader.step_of_isOutside hplace]
    rfl
  refine ⟨line, ?_⟩
  rw [List.foldlM_cons, hopen]
  refine hcomment.trans ?_
  obtain ⟨db, _, label, blocks, place⟩ := r
  obtain rfl : place = .outside := hplace
  rfl

end IsInside

namespace Note

variable (n : Note)

/-- What stands between the marks of a comment that defines no markup. -/
theorem isInside : IsInside n.inside := ⟨n.ne_nil, n.starts, n.ends, n.ne_close⟩

/-- The words of a comment are its marks and the words between them, and all of the
text between them is there. -/
theorem exists_words : ∃ after : List Char,
    n.inside = (words n.inside).flatMap (fun w => w.gap ++ w.text) ++ after ∧
      ∀ rest, StopsAt (!isBlank ·) rest → words (n.chars ++ rest) =
        ⟨[], "$(".toList⟩ :: (words n.inside ++ ⟨after, "$)".toList⟩ :: words rest) :=
  n.isInside.exists_words

/-- A comment that does not begin like one of markup defines none. -/
theorem addMarkup_inside (db : Database) : db.addMarkup n.inside = db := by
  have hnone : definitionsOfComment n.inside = [] := by
    unfold definitionsOfComment
    split
    · rename_i rest htrim
      exact absurd ⟨rest, htrim.symm⟩ n.plain
    · rfl
  rw [addMarkup, hnone]
  rfl

variable {n} {r : Reader}

/-- The words of a comment, the first with blanks before it. -/
def sourceWords (n : Note) (gap after : List Char) : List Word :=
  ⟨gap, "$(".toList⟩ :: (words n.inside ++ [⟨after, "$)".toList⟩])

/-- Outside of everything a comment is read and dropped. -/
theorem exists_foldlM_of_outside (hplace : r.IsOutside) (gap : List Char) {after : List Char}
    (hafter : n.inside = (words n.inside).flatMap (fun w => w.gap ++ w.text) ++ after) :
    ∃ line, (n.sourceWords gap after).foldlM Reader.step r = .ok { r with line := line } := by
  obtain ⟨line, hcomment⟩ := n.isInside.exists_foldlM_of_outside hplace gap hafter
  rw [n.addMarkup_inside] at hcomment
  exact ⟨line, hcomment⟩

/-- No word of a comment closes a list or a statement if no word between its marks
does. -/
theorem ne_stop_of_mem (h : "$." ∉ tokens n.inside) {gap after : List Char} {w : Word}
    (hw : w ∈ n.sourceWords gap after) : String.ofList w.text ≠ "$." := by
  unfold sourceWords at hw
  rcases List.mem_cons.mp hw with rfl | hw
  · change String.ofList "$(".toList ≠ "$."
    decide
  · rcases List.mem_append.mp hw with hw | hw
    · intro hstop
      exact h (List.mem_map.mpr ⟨w, hw, hstop⟩)
    · obtain rfl := List.mem_singleton.mp hw
      change String.ofList "$)".toList ≠ "$."
      decide

/-- Where further words say nothing a place is alike with and without them. -/
theorem UnnoticedIn.alike_collect {place : Place} (h : n.UnnoticedIn place.left)
    (hopen : place ≠ .outside) (ws : List Word) :
    place.Alike (place.collect ws) ∧ ∃ opener inner, place.left = some (opener, inner) ∧
      closerOf opener = "$." := by
  cases place with
  | outside => exact absurd rfl hopen
  | comment opened read =>
    obtain ⟨_, hwhere⟩ := h _ rfl
    simp at hwhere
  | symbols list opened read =>
    obtain ⟨_, hwhere⟩ := h _ rfl
    refine ⟨?_, _, _, rfl, list.closerOf_keyword⟩
    cases list with
    | ofConstants => simp [SymbolList.keyword] at hwhere
    | ofVariables => simp [SymbolList.keyword] at hwhere
    | ofDisjoint => exact .disjoint _ _ _ _
  | statement kind label opened read =>
    obtain ⟨_, hwhere⟩ := h _ rfl
    refine ⟨?_, _, _, rfl, closerOf_keyword kind⟩
    have hproof : "$=" ∈ read := by
      rcases hwhere with hdisjoint | ⟨_, hproof⟩
      · cases kind <;> simp [StatementKind.keyword] at hdisjoint
      · exact hproof
    obtain ⟨math, more, rfl⟩ := List.append_of_mem hproof
    rw [Place.collect, List.append_assoc]
    exact .proof _ _ _ _ math _ _

/-- Where a comment is not noticed the reader goes on behind it as before it. -/
theorem UnnoticedIn.exists_alike (h : n.UnnoticedIn r.place.left) (gap : List Char)
    {after : List Char}
    (hafter : n.inside = (words n.inside).flatMap (fun w => w.gap ++ w.text) ++ after) :
    ∃ r', (n.sourceWords gap after).foldlM Reader.step r = .ok r' ∧ r.Alike r' := by
  -- Outside the comment is read as one; inside its words are read along with the others.
  by_cases hplace : r.IsOutside
  · obtain ⟨line, hfold⟩ := exists_foldlM_of_outside hplace gap hafter
    exact ⟨_, hfold, rfl, rfl, rfl, .refl _⟩
  · obtain ⟨halike, opener, inner, hleft, hcloser⟩ :=
      h.alike_collect hplace (n.sourceWords gap after)
    have hfree : ∀ w ∈ n.sourceWords gap after, String.ofList w.text ≠ closerOf opener := by
      intro w hw
      rw [hcloser]
      exact ne_stop_of_mem (h _ hleft).1 hw
    obtain ⟨line, hfold⟩ := Reader.foldlM_of_ne_closer hleft hfree
    exact ⟨_, hfold, rfl, rfl, rfl, halike⟩

/-- The reader is not inside another comment where a comment is not noticed. -/
theorem UnnoticedIn.not_isInComment (h : n.UnnoticedIn r.place.left) : ¬r.IsInComment := by
  rintro ⟨opened, read, hplace⟩
  rw [hplace] at h
  obtain ⟨_, hwhere⟩ := h _ rfl
  simp at hwhere

end Note

/-- Comments are passed over. Between two words of a source that is accepted a comment
may be put that defines no markup and that blanks set off: outside of all lists and
statements, in a list of variables that are kept apart, and behind the mark that a
proof begins with, in the last two cases if no word of the comment is the one that
closes the list or statement. What the source declares is the same to the last
detail. -/
theorem comments_are_passed_over {provable logic : Typecode} {front back before after : List Char}
    {db : Database} (n : Note) (hwords : Apart front back)
    (hbefore : ∀ c ∈ before, isBlank c = true) (hafter : ∀ c ∈ after, isBlank c = true)
    (hfront : Apart (front ++ before) n.chars) (hback : Apart n.chars (after ++ back))
    (hplace : n.UnnoticedIn (openBehind (tokens front)))
    (hread : read provable logic (front ++ back) = .ok db) :
    read provable logic (front ++ before ++ n.chars ++ after ++ back) = .ok db := by
  obtain ⟨gap, _, _, hsplit⟩ := exists_words_append front
  obtain ⟨inner, hinner, hnote⟩ := n.exists_words
  have hstop : StopsAt (!isBlank ·) (after ++ back) := by
    refine hback.resolve_left ?_
    rw [Note.chars, List.reverse_append, List.reverse_append, List.append_assoc]
    exact fun h => absurd (stopsAt_cons.mp h) (by decide)
  have hnext : Apart front (before ++ (n.chars ++ (after ++ back))) := by
    cases before with
    | nil =>
      left
      have hblank := hfront.resolve_right fun h => absurd (stopsAt_cons.mp h) (by decide)
      rwa [List.append_nil] at hblank
    | cons b bs =>
      right
      rw [List.cons_append, stopsAt_cons, hbefore b List.mem_cons_self]
      rfl
  -- Both texts have the words of the front, and then those of the back but for blanks.
  have hold : words (front ++ back) = words front ++ widen gap (words back) := hsplit back hwords
  have hnew : words (front ++ before ++ n.chars ++ after ++ back) =
      words front ++ (n.sourceWords (gap ++ (before ++ [])) inner ++ widen after (words back)) := by
    have hassoc : front ++ before ++ n.chars ++ after ++ back =
        front ++ (before ++ (n.chars ++ (after ++ back))) := by
      simp only [List.append_assoc]
    rw [hassoc, hsplit _ hnext, words_of_blank hbefore, hnote _ hstop, words_of_blank hafter]
    simp [widen, Note.sourceWords]
  obtain ⟨last, hfold, hfinish⟩ := read_eq_ok_iff.mp hread
  rw [hold] at hfold
  obtain ⟨r, hreach, hrest⟩ := Reader.foldlM_append_eq_ok_iff.mp hfold
  have hhere : n.UnnoticedIn r.place.left := by
    rw [Reader.left_of_foldlM hreach]
    exact hplace
  obtain ⟨r', hcomment, halike⟩ := hhere.exists_alike (gap ++ (before ++ [])) hinner
  obtain ⟨last', hrest', halike'⟩ := halike.foldlM_widen hhere.not_isInComment hrest
  refine read_eq_ok_iff.mpr ⟨last', ?_, halike'.finish hfinish _⟩
  rw [hnew]
  exact Reader.foldlM_append_eq_ok_iff.mpr ⟨r, hreach,
    Reader.foldlM_append_eq_ok_iff.mpr ⟨r', hcomment, hrest'⟩⟩

/-- A comment on sums. -/
def sampleNote : Note where
  inside := " sums of classes ".toList
  ne_nil := by decide
  starts := stopsAt_cons.mpr rfl
  ends := stopsAt_cons.mpr rfl
  ne_close := by decide +kernel
  plain := by decide

/-- A comment with a word that closes lists and statements. -/
def stopNote : Note where
  inside := " apart $. always ".toList
  ne_nil := by decide
  starts := stopsAt_cons.mpr rfl
  ends := stopsAt_cons.mpr rfl
  ne_close := by decide +kernel
  plain := by decide

/-- The small source with a comment between the label and the keyword of a statement
declares the same. -/
theorem comments_are_passed_over_sample :
    read "|-" "w" sampleSource = .ok sample ∧
      read "|-" "w" ("$c c w + = $. $v x y $. cx $f c x $. cy $f c y $. add".toList ++ [' '] ++
        sampleNote.chars ++ [] ++ " $a c x + y $. eq $a w x = y $.".toList) = .ok sample := by
  have hread : read "|-" "w" sampleSource = .ok sample := by
    decide +kernel
  have hnone : openBehind
      (tokens "$c c w + = $. $v x y $. cx $f c x $. cy $f c y $. add".toList) = none := by
    decide +kernel
  refine ⟨hread, comments_are_passed_over sampleNote (.inr (stopsAt_cons.mpr rfl))
    (by simp [isBlank]) (by simp) (.inl (stopsAt_cons.mpr rfl)) (.inr (stopsAt_cons.mpr rfl)) ?_ hread⟩
  rw [hnone]
  intro p hp
  cases hp

/-- In the math of a statement and in a list of symbols the words of a comment are
symbols. A word of it that closes a list or a proof closes these. -/
theorem comments_can_be_noticed :
    (read "|-" "c" ("$c c 0 $. zero $a c ".toList ++ "0 $.".toList)).toOption.map
        (·.grammar.rulesOf "c") = some [⟨"zero", ["0"]⟩] ∧
      (read "|-" "c" ("$c c 0 $. zero $a c ".toList ++ sampleNote.chars ++ " 0 $.".toList)
        ).toOption.map (·.grammar.rulesOf "c") =
          some [⟨"zero", ["$(", "sums", "of", "classes", "$)", "0"]⟩] ∧
      (read "|-" "c" ("$v x ".toList ++ sampleNote.chars ++ " y $.".toList)).toOption.map
        (·.variableSymbols) = some ["x", "$(", "sums", "of", "classes", "$)", "y"] ∧
      (read "|-" "c" ("$d x ".toList ++ "y $.".toList)).isOk = true ∧
      (read "|-" "c" ("$d x ".toList ++ stopNote.chars ++ " y $.".toList)).isOk = false ∧
      (read "|-" "c" ("$c c 0 $. zero $p c 0 $= ".toList ++ "x $.".toList)).isOk = true ∧
      (read "|-" "c" ("$c c 0 $. zero $p c 0 $= ".toList ++ stopNote.chars ++ " x $.".toList)
        ).isOk = false := by
  decide +kernel

end Typeset.Database

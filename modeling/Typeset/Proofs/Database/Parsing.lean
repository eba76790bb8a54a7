import Typeset.Proofs.Database.Declared
import Typeset.Proofs.Grammar.Completeness

/-!
# Parsing finds each derivation once

From every position of a list of symbols the parser finds the derivation trees
without idle rules that begin there, each of them once, together with the
position where it stops. Reading a whole list under several typecodes is then
a matter of derivations alone: it succeeds if one of the typecodes derives the
list, and gives a tree of the first one that does.
-/

namespace Typeset

namespace Grammar

variable {g : Grammar}

/-- Every way to read an expression of a typecode from a position on, with the
position behind it. -/
def readingsAt (g : Grammar) (tc : Typecode) (symbols : List Symbol) (position : Nat) :
    Enumeration (Formula × Nat) :=
  (g.readings tc (symbols.drop position)).map fun p =>
    (p.formula, symbols.length - p.rest.length)

/-- The readings from a position on are those of the symbols that stand
there. -/
theorem toList_readingsAt (hg : g.NoEmptyRule) (tc : Typecode) (symbols : List Symbol)
    (position : Nat) :
    (g.readingsAt tc symbols position).toList =
      (g.listed [] tc (symbols.drop position)).map fun p =>
        (p.formula, symbols.length - p.rest.length) := by
  rw [readingsAt, Enumeration.toList_map, toList_readings hg]

/-- The readings from a position on come to an end. -/
theorem finishes_readingsAt (hg : g.NoEmptyRule) (tc : Typecode) (symbols : List Symbol)
    (position : Nat) : (g.readingsAt tc symbols position).finishes = true := by
  rw [readingsAt, Enumeration.finishes_map]
  exact finishes_readings hg tc _

/-- What stands between two positions is the front of what stands behind the
first. -/
theorem drop_take_eq_front {symbols front rest : List Symbol} {position : Nat}
    (h : symbols.drop position = front ++ rest) (hpos : 0 < front.length) :
    position ≤ symbols.length - rest.length ∧
      (symbols.take (symbols.length - rest.length)).drop position = front := by
  have hlength : symbols.length - position = front.length + rest.length := by
    rw [← List.length_drop, h, List.length_append]
  have hstop : symbols.length - rest.length - position = front.length := by omega
  refine ⟨by omega, ?_⟩
  rw [List.drop_take, h, hstop, List.take_left]

/-- What is read from a position on are the derivation trees without idle rules
that begin there. -/
theorem mem_readingsAt_iff (hg : g.NoEmptyRule) (hc : g.Acyclic) {tc : Typecode}
    {symbols : List Symbol} {position stop : Nat} {f : Formula} :
    (f, stop) ∈ (g.readingsAt tc symbols position).toList ↔
      position ≤ stop ∧ stop ≤ symbols.length ∧
        Derives g g.busyRule tc f ((symbols.take stop).drop position) := by
  rw [toList_readingsAt hg, List.mem_map]
  constructor
  · rintro ⟨p, hp, heq⟩
    obtain ⟨rfl, rfl⟩ := Prod.mk.inj heq
    obtain ⟨front, hfront, hderives⟩ := (mem_listed_iff hg hc).mp hp
    obtain ⟨hle, hslice⟩ := drop_take_eq_front hfront ((length_of_derives hg).1 hderives)
    exact ⟨hle, Nat.sub_le _ _, by rw [hslice]; exact hderives⟩
  · rintro ⟨hle, hstop, hderives⟩
    refine ⟨⟨f, symbols.drop stop⟩, (mem_listed_iff hg hc).mpr ⟨_, ?_, hderives⟩, ?_⟩
    · have hsplit : symbols.drop stop = (symbols.drop position).drop (stop - position) := by
        rw [List.drop_drop]
        congr 1
        omega
      rw [List.drop_take, hsplit, List.take_append_drop]
    · have hlength : symbols.length - (symbols.drop stop).length = stop := by
        rw [List.length_drop]
        omega
      rw [hlength]

/-- No formula is read from a position on in two ways, even if tags are not
told apart. -/
theorem nodup_readingsAt (hg : g.NoEmptyRule) (hd : g.Distinct) (tc : Typecode)
    (symbols : List Symbol) (position : Nat) :
    ((g.readingsAt tc symbols position).toList.map fun p => (p.1.untagged, p.2)).Nodup := by
  rw [toList_readingsAt hg, List.map_map]
  have huntagged : (((g.listed [] tc (symbols.drop position)).map (·.formula)).map
      (·.untagged)).Nodup := by
    apply (nodup_listed hg hd [] tc _).map_on
    intro f hf f' hf' hsame
    obtain ⟨p, hp, rfl⟩ := List.mem_map.mp hf
    obtain ⟨p', hp', rfl⟩ := List.mem_map.mp hf'
    obtain ⟨_, _, hderives⟩ := sound_of_mem_parses hp
    obtain ⟨_, _, hderives'⟩ := sound_of_mem_parses hp'
    exact ((eq_of_same_all hd).1 hderives _ _ _ hderives'
      ((Formula.same_iff _ _).mpr hsame)).2.1
  apply List.Nodup.of_map Prod.fst
  simpa only [List.map_map, Function.comp_def] using huntagged

/-- Nothing is read of symbols exactly when no tree derives them. -/
theorem read?_eq_none_iff (hg : g.NoEmptyRule) (hc : g.Acyclic) {tc : Typecode}
    {symbols : List Symbol} :
    g.read? tc symbols = none ↔ ¬∃ f, Derives g anyRule tc f symbols := by
  rw [read?_eq_find?_listed hg, Option.map_eq_none_iff, List.find?_eq_none]
  constructor
  · rintro hnone ⟨f, hderives⟩
    obtain ⟨f', hbusy⟩ := hderives.exists_busy
    have hmem : (⟨f', []⟩ : Parse) ∈ g.listed [] tc symbols :=
      (mem_listed_iff hg hc).mpr ⟨symbols, by simp, hbusy⟩
    exact hnone _ hmem rfl
  · intro hnone p hp hrest
    obtain ⟨front, hfront, hderives⟩ := (mem_listed_iff hg hc).mp hp
    rw [List.isEmpty_iff.mp hrest, List.append_nil] at hfront
    subst hfront
    exact hnone ⟨_, hderives.mono fun _ _ _ => trivial⟩

end Grammar

namespace Database

open Grammar

/-- A formula that was read is a reading under one of the typecodes, and the
typecodes before it give none. -/
theorem of_readAs_eq_ok {db : Database} {symbols : List Symbol} {typecodes : List Typecode}
    {asserted : Bool} {f : Formula} (h : db.readAs symbols typecodes asserted = .ok f) :
    ∃ before tc after f', typecodes = before ++ tc :: after ∧
      (∀ tc' ∈ before, db.grammar.read? tc' symbols = none) ∧
      db.grammar.read? tc symbols = some f' ∧ f = db.framed asserted tc f' := by
  unfold readAs at h
  split at h
  · rename_i f'' hfound
    cases h
    obtain ⟨before, tc, after, hsplit, htc, hbefore⟩ := List.findSome?_eq_some_iff.mp hfound
    obtain ⟨f', hread, hframed⟩ := Option.map_eq_some_iff.mp htc
    refine ⟨before, tc, after, f', hsplit, ?_, hread, hframed.symm⟩
    intro tc' htc'
    exact Option.map_eq_none_iff.mp (hbefore tc' htc')
  · cases h

/-- A formula that was read under one typecode is a reading under it. -/
theorem of_readAs_singleton {db : Database} {symbols : List Symbol} {tc : Typecode}
    {asserted : Bool} {f : Formula} (h : db.readAs symbols [tc] asserted = .ok f) :
    ∃ f', db.grammar.read? tc symbols = some f' ∧ f = db.framed asserted tc f' := by
  obtain ⟨before, tc', after, f', hsplit, _, hread, hf⟩ := of_readAs_eq_ok h
  have htc : tc' = tc := by
    cases before <;> simp_all
  subst htc
  exact ⟨f', hread, hf⟩

/-- Framing changes the tag of the root at most. -/
theorem exists_framed_eq_retag (db : Database) (asserted : Bool) (tc : Typecode) (f : Formula) :
    ∃ tag, db.framed asserted tc f = f.retag tag := by
  unfold framed
  split
  · exact ⟨_, rfl⟩
  · exact ⟨f.typecode, (Formula.retag_typecode f).symm⟩

/-- Framing keeps the label. -/
theorem label_framed (db : Database) (asserted : Bool) (tc : Typecode) (f : Formula) :
    (db.framed asserted tc f).label = f.label := by
  obtain ⟨tag, heq⟩ := db.exists_framed_eq_retag asserted tc f
  rw [heq, Formula.label_retag]

/-- Framing keeps the parts. -/
theorem children_framed (db : Database) (asserted : Bool) (tc : Typecode) (f : Formula) :
    (db.framed asserted tc f).children = f.children := by
  obtain ⟨tag, heq⟩ := db.exists_framed_eq_retag asserted tc f
  rw [heq, Formula.children_retag]

/-- Symbols that cannot be read give no reading under any of the typecodes. -/
theorem of_readAs_eq_error {db : Database} {symbols : List Symbol} {typecodes : List Typecode}
    {asserted : Bool} {e : Unreadable} (h : db.readAs symbols typecodes asserted = .error e) :
    e = ⟨symbols, typecodes⟩ ∧ ∀ tc ∈ typecodes, db.grammar.read? tc symbols = none := by
  unfold readAs at h
  split at h
  · cases h
  · rename_i hnone
    cases h
    refine ⟨rfl, ?_⟩
    intro tc htc
    exact Option.map_eq_none_iff.mp (List.findSome?_eq_none_iff.mp hnone tc htc)

/-- Symbols with a complete reading under a typecode are read as the first one. -/
theorem readAs_singleton_of_read? (db : Database) {tc : Typecode} {symbols : List Symbol}
    {f : Formula} (h : db.grammar.read? tc symbols = some f) (asserted : Bool) :
    db.readAs symbols [tc] asserted = .ok (db.framed asserted tc f) := by
  cases hread : db.readAs symbols [tc] asserted with
  | ok f' =>
    obtain ⟨f'', hfirst, rfl⟩ := of_readAs_singleton hread
    rw [h, Option.some_inj] at hfirst
    rw [hfirst]
  | error e =>
    have hnone := (of_readAs_eq_error hread).2 tc (List.mem_singleton_self tc)
    rw [h] at hnone
    cases hnone

/-- In a database that declares every label once, has no empty rule and leads
no typecode in a circle through another, parsing is exact. From any position
it finds, each once, the derivation trees without idle rules that begin there.
Reading symbols succeeds if one of the typecodes derives them, and gives a tree
of the first such typecode; otherwise it says what could not be read. -/
theorem parsing_is_exact {db : Database} (hdb : db.DeclaredOnce) (hg : db.grammar.NoEmptyRule)
    (hc : db.grammar.Acyclic) :
    (∀ tc symbols position,
      (db.grammar.readingsAt tc symbols position).finishes = true ∧
        (∀ f stop, (f, stop) ∈ (db.grammar.readingsAt tc symbols position).toList ↔
          position ≤ stop ∧ stop ≤ symbols.length ∧
            Derives db.grammar db.grammar.busyRule tc f ((symbols.take stop).drop position)) ∧
        ((db.grammar.readingsAt tc symbols position).toList.map
          fun p => (p.1.untagged, p.2)).Nodup) ∧
    (∀ symbols typecodes asserted,
      ((∃ f, db.readAs symbols typecodes asserted = .ok f) ↔
        ∃ tc ∈ typecodes, ∃ f, Derives db.grammar anyRule tc f symbols) ∧
      (∀ f, db.readAs symbols typecodes asserted = .ok f →
        ∃ before tc after f', typecodes = before ++ tc :: after ∧
          (∀ tc' ∈ before, ¬∃ f', Derives db.grammar anyRule tc' f' symbols) ∧
          Derives db.grammar db.grammar.busyRule tc f' symbols ∧
          f = db.framed asserted tc f') ∧
      ∀ e, db.readAs symbols typecodes asserted = .error e → e = ⟨symbols, typecodes⟩) := by
  constructor
  · intro tc symbols position
    have hnodup := nodup_readingsAt hg hdb.consistent.distinct tc symbols position
    exact ⟨finishes_readingsAt hg tc symbols position,
      fun _ _ => mem_readingsAt_iff hg hc, hnodup⟩
  · intro symbols typecodes asserted
    have hok : ∀ f, db.readAs symbols typecodes asserted = .ok f →
        ∃ before tc after f', typecodes = before ++ tc :: after ∧
          (∀ tc' ∈ before, ¬∃ f', Derives db.grammar anyRule tc' f' symbols) ∧
          Derives db.grammar db.grammar.busyRule tc f' symbols ∧
          f = db.framed asserted tc f' := by
      intro f hf
      obtain ⟨before, tc, after, f', hsplit, hbefore, hread, hframed⟩ := of_readAs_eq_ok hf
      refine ⟨before, tc, after, f', hsplit, ?_, derives_of_read? hread, hframed⟩
      intro tc' htc'
      exact (read?_eq_none_iff hg hc).mp (hbefore tc' htc')
    refine ⟨?_, hok, fun e he => (of_readAs_eq_error he).1⟩
    constructor
    · rintro ⟨f, hf⟩
      obtain ⟨before, tc, after, f', hsplit, _, hderives, _⟩ := hok f hf
      have htc : tc ∈ typecodes := by simp [hsplit]
      exact ⟨tc, htc, f', hderives.mono fun _ _ _ => trivial⟩
    · rintro ⟨tc, htc, hderives⟩
      cases hread : db.readAs symbols typecodes asserted with
      | ok f => exact ⟨f, rfl⟩
      | error e =>
        have hnone := (of_readAs_eq_error hread).2 tc htc
        exact absurd hderives ((read?_eq_none_iff hg hc).mp hnone)

/-- The small database is one of those that parsing is exact for: it reads an
equation, and finds the sum at the head of it. -/
theorem parsing_is_exact_sample :
    (sample.DeclaredOnce ∧ sample.grammar.NoEmptyRule ∧ sample.grammar.Acyclic) ∧
      (∃ f, sample.readAs ["x", "+", "y", "=", "x"] ["c", "w"] true = .ok f) ∧
      (sampleSum, 3) ∈ (sample.grammar.readingsAt "c" ["x", "+", "y", "=", "x"] 0).toList := by
  have hg : sample.grammar.NoEmptyRule := forall_rules_of_entries (by decide)
  have hc : sample.grammar.Acyclic :=
    acyclic_of_rank (fun tc => if tc = "w" then 1 else 0) (forall_rules_of_entries (by decide))
  have hexact := parsing_is_exact declaredOnce_sample hg hc
  refine ⟨⟨declaredOnce_sample, hg, hc⟩, ?_, ?_⟩
  · have hderives : Derives sample.grammar anyRule "w" sampleEquation ["x", "+", "y", "=", "x"] :=
      derives_sampleEquation.mono fun _ _ _ => trivial
    exact (hexact.2 _ _ true).1.mpr ⟨"w", by decide, _, hderives⟩
  · exact ((hexact.1 "c" _ 0).2.1 _ _).mpr ⟨by decide, by decide, derives_sampleSum⟩

end Database

end Typeset

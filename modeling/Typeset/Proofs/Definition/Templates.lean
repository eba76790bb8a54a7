import Typeset.Proofs.Definition.Compositional
import Typeset.Proofs.Text.Filling

/-!
# Templates of schemes

A pattern scheme that applies fills its template with the texts of what its
variables stand for. The placeholders of different variables are different, so
this is one scan for the longest placeholders, whatever stands around the names
and in whatever order the variables are bound. With a mark of one character
around names, a template of such names and of literals without the mark comes
out as it reads. A variable whose own name holds the mark can come in between,
since its placeholder may be longer than the one that the template is meant to
hold.
-/

namespace Typeset.Definition

open Text

variable {ε : Type} {d : Definition} {settings : Settings} {f : Formula}
  {render : (tc : Typecode) → (g : Formula) → d.HandsOn f tc g → Except ε (Option String)}
  {parts : List (Symbol × String)}

/-- Parts are the names of the variables that are bound, in order, each with the
text of what the variable stands for, rendered under the typecode of its
identifier. -/
def RenderedAs (d : Definition)
    (render : (tc : Typecode) → (g : Formula) → d.HandsOn f tc g → Except ε (Option String))
    (bindings : List (Label × Formula)) (parts : List (Symbol × String)) : Prop :=
  List.Forall₂ (fun b part => d.database.variableName? b.1 = some part.1 ∧
    ∃ tc handed, d.identifiers.get? b.1 = some tc ∧ render tc b.2 handed = .ok (some part.2))
    bindings parts

/-- The texts of parts are kept under the placeholders of their names. -/
theorem RenderedAs.renderBindings_eq {bindings : List (Label × Formula)}
    (hparts : d.RenderedAs render bindings parts)
    (h : ∀ b ∈ bindings, b.2 = f ∨ b.2.size < f.size) (texts : Table String String) :
    d.renderBindings settings f render bindings h texts =
      .ok (some (parts.foldl (fun t part => t.set (settings.placeholder part.1) part.2) texts)) := by
  induction hparts generalizing texts with
  | nil => rw [renderBindings, List.foldl_nil]
  | @cons b part more parts hpart _ ih =>
    obtain ⟨hname, tc, handed, htc, hrender⟩ := hpart
    rw [renderBindings_cons hname htc, hrender]
    exact ih _ _

/-- The texts of parts, each for the placeholder of its name. -/
def fillings (settings : Settings) (parts : List (Symbol × String)) : List Filling :=
  parts.map fun part => ((settings.placeholder part.1).toList, part.2.toList)

/-- A filled template has the characters of the template, filled. -/
theorem toList_filled (settings : Settings) (parts : List (Symbol × String)) (template : String) :
    (filled settings parts template).toList = fill (fillings settings parts) template.toList := by
  rw [filled, String.toList_ofList]
  rfl

/-- No placeholder of different names is given twice. -/
theorem nodup_fillings (hnames : (parts.map (·.1)).Nodup) (settings : Settings) :
    ((fillings settings parts).map Prod.fst).Nodup := by
  have hchars := (hnames.map settings.placeholder_injective).map fun _ _ => String.toList_inj.mp
  rw [List.map_map, List.map_map] at hchars
  rw [fillings, List.map_map]
  exact hchars

/-- A pattern scheme gives its template, filled with the parts. -/
theorem RenderedAs.applyWith_eq {s : Scheme} {bindings : Bindings} (hi : s.isIdentifier = false)
    (hm : d.database.match? s.pattern f = some bindings)
    (hparts : d.RenderedAs render bindings.entries parts) (hnames : (parts.map (·.1)).Nodup) :
    d.applyWith settings s f render = .ok (some (filled settings parts s.template)) := by
  have hentries : (parts.foldl (fun t part => t.set (settings.placeholder part.1) part.2)
      Table.empty).entries = parts.map fun part => (settings.placeholder part.1, part.2) := by
    rw [← entries_placeholders hnames, Table.ofList, List.foldl_map]
  rw [applyWith_of_match?_eq_some hi hm, hparts.renderBindings_eq]
  simp only [Except.map, Option.map, hentries, List.map_map]
  rfl

/-- A literal in front, then names in their placeholders, each with a literal
behind it. -/
def slotted (settings : Settings) (front : String) (slots : List ((Symbol × String) × String)) :
    String :=
  front ++ String.join (slots.map fun slot => settings.placeholder slot.1.1 ++ slot.2)

/-- The same with the texts of the names in the places of the placeholders. -/
def spelledOut (front : String) (slots : List ((Symbol × String) × String)) : String :=
  front ++ String.join (slots.map fun slot => slot.1.2 ++ slot.2)

/-- With a mark of one character a placeholder is a marked name. -/
theorem toList_placeholder {mark : Char}
    (hmark : settings.variableDelimiter = String.singleton mark) (name : Symbol) :
    (settings.placeholder name).toList = marked mark name.toList := by
  simp [Settings.placeholder, hmark, marked]

/-- Literals and names without the mark come out as they read, if the placeholders
of names with the mark are nowhere in the template. -/
theorem filled_slotted (hnames : (parts.map (·.1)).Nodup) {mark : Char}
    (hmark : settings.variableDelimiter = String.singleton mark) {front : String}
    (hfront : mark ∉ front.toList) {slots : List ((Symbol × String) × String)}
    (hslots : ∀ slot ∈ slots,
      slot.1 ∈ parts ∧ mark ∉ slot.1.1.toList ∧ mark ∉ slot.2.toList)
    (hothers : ∀ part ∈ parts, mark ∈ part.1.toList →
      ¬(settings.placeholder part.1).toList <:+: (slotted settings front slots).toList) :
    filled settings parts (slotted settings front slots) = spelledOut front slots := by
  have htemplate : (slotted settings front slots).toList = front.toList ++
      Text.slotted mark (slots.map fun slot =>
        ((slot.1.1.toList, slot.1.2.toList), slot.2.toList)) := by
    simp [slotted, Text.slotted, List.flatMap_map, toList_placeholder hmark]
  have houtcome : (spelledOut front slots).toList = front.toList ++
      (slots.map fun slot => ((slot.1.1.toList, slot.1.2.toList), slot.2.toList)).flatMap
        fun slot => slot.1.2 ++ slot.2 := by
    simp [spelledOut, List.flatMap_map]
  rw [← String.toList_inj, toList_filled, houtcome, htemplate]
  apply fill_slotted (nodup_fillings hnames settings) hfront
  · intro filling hfilling
    obtain ⟨slot, hslot, rfl⟩ := List.mem_map.mp hfilling
    obtain ⟨hpart, hname, hliteral⟩ := hslots slot hslot
    refine ⟨hname, hliteral, List.mem_map.mpr ⟨slot.1, hpart, ?_⟩⟩
    rw [toList_placeholder hmark]
  · intro q hq
    obtain ⟨part, hpart, rfl⟩ := List.mem_map.mp hq
    refine ⟨part.1.toList, toList_placeholder hmark part.1, ?_⟩
    rw [← htemplate]
    exact hothers part hpart

/-- Templates are filled in one scan. For parts with different names a pattern scheme
gives its template, filled; and filling is the scan that from left to right puts the
text of the longest placeholder that stands at a place there, and copies a character
where none stands, in whatever order the parts come. With a mark of one character
around names, literals and names without the mark come out as they read, whatever the
texts hold, if the placeholder of no name with the mark is in the template. -/
theorem templates_are_scanned (settings : Settings) {parts : List (Symbol × String)}
    (hnames : (parts.map (·.1)).Nodup) (template : String) :
    (∀ {ε : Type} (d : Definition) (f : Formula) (s : Scheme) (bindings : Bindings)
      (render : (tc : Typecode) → (g : Formula) → d.HandsOn f tc g → Except ε (Option String)),
      s.isIdentifier = false → s.template = template →
      d.database.match? s.pattern f = some bindings →
      d.RenderedAs render bindings.entries parts →
      d.applyWith settings s f render = .ok (some (filled settings parts template))) ∧
    (∀ out, Filled (fillings settings parts) template.toList out ↔
      out = (filled settings parts template).toList) ∧
    (∀ parts', parts'.Perm parts →
      filled settings parts' template = filled settings parts template) ∧
    ∀ mark, settings.variableDelimiter = String.singleton mark →
      ∀ front slots, template = slotted settings front slots → mark ∉ front.toList →
      (∀ slot ∈ slots, slot.1 ∈ parts ∧ mark ∉ slot.1.1.toList ∧ mark ∉ slot.2.toList) →
      (∀ part ∈ parts, mark ∈ part.1.toList →
        ¬(settings.placeholder part.1).toList <:+: template.toList) →
      filled settings parts template = spelledOut front slots := by
  refine ⟨?_, ?_, ?_, ?_⟩
  · rintro ε d f s bindings render hi rfl hm hparts
    exact hparts.applyWith_eq hi hm hnames
  · intro out
    rw [toList_filled]
    exact filled_iff (nodup_fillings hnames settings)
  · intro parts' hperm
    rw [← String.toList_inj, toList_filled, toList_filled]
    exact fill_eq_of_perm (nodup_fillings hnames settings) (hperm.map _) _
  · rintro mark hmark front slots rfl hfront hslots hothers
    exact filled_slotted hnames hmark hfront hslots hothers

/-- A text that holds the placeholder of another variable is not looked at again. -/
theorem templates_are_scanned_sample :
    ([("x", "#y#"), ("y", "1")].map (·.1) : List Symbol).Nodup ∧
      filled {} [("x", "#y#"), ("y", "1")] "#x# + #y#" = "#y# + 1" := by
  have hnames : ([("x", "#y#"), ("y", "1")].map (·.1) : List Symbol).Nodup := by decide
  obtain ⟨-, -, -, hslots⟩ := templates_are_scanned {} hnames "#x# + #y#"
  refine ⟨hnames, ?_⟩
  exact hslots '#' rfl "" [(("x", "#y#"), " + "), (("y", "1"), "")] (by decide +kernel)
    (by decide) (by decide) (by decide)

/-- A definition for sums of two variables, one of which has a name that reads like a
piece of a template. -/
def sampleMarked : Definition where
  database :=
    { provable := "|-"
      logic := "w"
      constants := ["c", "+"]
      variableSymbols := ["x", "x#-#x"]
      statements := ⟨[("cx", ⟨"cx", .floating, ["c", "x"]⟩),
        ("cy", ⟨"cy", .floating, ["c", "x#-#x"]⟩),
        ("add", ⟨"add", .axiomatic, ["c", "x", "+", "x#-#x"]⟩)]⟩
      floatings := ⟨[("cx", ⟨"cx", "c", "x"⟩), ("cy", ⟨"cy", "c", "x#-#x"⟩)]⟩
      grammar :=
        { floatings := ⟨[("x", ⟨"cx", "c", "x"⟩), ("x#-#x", ⟨"cy", "c", "x#-#x"⟩)]⟩
          rules := ⟨[("c", [⟨"add", ["x", "+", "x#-#x"]⟩])]⟩ }
      typecodes := ["c"]
      hypotheses := ⟨[("add", [])]⟩ }
  schemes := ⟨[("c", [⟨true, "c", .node "cx" "c" [], "1", 1⟩,
    ⟨true, "c", .node "cy" "c" [], "2", 2⟩,
    ⟨false, "c", Database.sampleSum, "#x#-#x#", 3⟩])]⟩
  identifiers := ⟨[("cx", "c"), ("cy", "c")]⟩
  header := ""
  display := "###"

/-- Literals and names without the mark need not come out as they read. A template
that holds the name `x` twice, with a literal between, is the placeholder of the
other variable as a whole, which is longer, so it gives way to that variable's
text. -/
theorem longer_name_takes_place :
    ∃ bindings, sampleMarked.database.match? Database.sampleSum Database.sampleSum = some bindings ∧
      sampleMarked.MadeUpOf {} bindings [("x", "1"), ("x#-#x", "2")] ∧
      "#x#-#x#" = slotted {} "" [(("x", "1"), "-"), (("x", "1"), "")] ∧
      '#' ∉ "x".toList ∧ '#' ∉ "-".toList ∧
      spelledOut "" [(("x", "1"), "-"), (("x", "1"), "")] = "1-1" ∧
      sampleMarked.apply {} ⟨false, "c", Database.sampleSum, "#x#-#x#", 3⟩ Database.sampleSum =
        .ok (some "2") ∧
      sampleMarked.format {} "c" Database.sampleSum [] = .ok "2" := by
  refine ⟨⟨[("cx", .node "cx" "c" []), ("cy", .node "cy" "c" [])]⟩, by rfl, ?_, by decide,
    by decide, by decide, by decide, by decide +kernel, by decide +kernel⟩
  have hx : sampleMarked.format {} "c" (.node "cx" "c" []) [] = .ok "1" := by decide +kernel
  have hy : sampleMarked.format {} "c" (.node "cy" "c" []) [] = .ok "2" := by decide +kernel
  exact .cons ⟨rfl, "c", rfl, hx⟩ (.cons ⟨rfl, "c", rfl, hy⟩ .nil)

end Typeset.Definition

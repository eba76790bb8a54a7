import Typeset.Proofs.Definition.Built
import Typeset.Proofs.Definition.Calls
import Typeset.Proofs.Definition.Unguarded

/-!
# Rendering ends

Nothing is asked of the schemes: patterns may be bare variables, variables may
stand in for other typecodes, and typecodes may hand a formula round. A call
either goes below the root of the formula, or keeps the formula and begins a
render of it under one more typecode of the definition. So for every node of
the formula, calls are nested no deeper than there are typecodes, and one more.
Rendering is therefore over, with a text or an error, when it is done without
any argument for its end and cut off at that depth.
-/

namespace Typeset.Definition

/-- Renders with the guard against circles, as far as calls may be nested to a
depth. -/
def runWithin (d : Definition) (settings : Settings) : Nat → Call → Except Stop String
  | 0, _ => .error .unfinished
  | depth + 1, c => d.formatWith settings .failed c.typecode c.formula fun tc g _ =>
    guarded c (d.runWithin settings depth) tc g

variable {d : Definition} {settings : Settings}

/-- An outcome is answered by the same outcome, marked as over, and by no
other. -/
theorem eq_mapError_of_answers {α : Type} {x : Except RenderError α} {y : Except Stop α}
    (h : Answers (fun _ => False) (fun e s => s = .failed e) x y) : y = x.mapError .failed := by
  cases h with
  | ok a => rfl
  | error he => rw [he]; rfl
  | excused he y => exact he.elim

/-- A render is over at any depth greater than its weight. -/
theorem runWithin_eq {tcs : List Typecode}
    (htcs : ∀ l tc, d.identifiers.get? l = some tc → tc ∈ tcs) (depth : Nat) :
    ∀ c : Call, c.weight tcs < depth →
      d.runWithin settings depth c = (d.run settings c).mapError .failed := by
  induction depth with
  | zero =>
    intro c hc
    exact absurd hc (Nat.not_lt_zero _)
  | succ depth ih =>
    intro c hc
    have hcalls : ∀ c', d.Calls c c' →
        Answers (fun _ => False) (fun e s => s = .failed e) (d.run settings c')
          (d.runWithin settings depth c') := by
      intro c' hcall
      obtain ⟨l, hl⟩ := hcall.registered
      have hlt := hcall.weight_lt (htcs l _ hl)
      rw [ih c' (by omega)]
      cases d.run settings c' with
      | ok text => exact .ok text
      | error e => exact .error rfl
    rw [run_eq, runWithin]
    exact eq_mapError_of_answers (answers_formatWith_of_calls (fun _ => rfl) hcalls)

/-- Rendering ends, whatever schemes a definition was built from. A render asks
for nothing but its calls. A call goes below the root of the formula, or keeps
the formula and adds to the renders in progress a new one, under a typecode of
the definition. So there are finitely many calls below any; and for every node
of the formula, calls are nested no deeper than there are typecodes, and one
more: cut off there, every render is over. -/
theorem rendering_ends {db : Database} {schemes : List Scheme} (hd : d.IsBuiltFrom db schemes)
    (settings : Settings) :
    (∀ c outcome, (∀ c', d.Calls c c' → outcome c' = d.run settings c') →
      (d.formatWith settings id c.typecode c.formula fun tc g _ => guarded c outcome tc g) =
        d.run settings c) ∧
    (∀ c c', d.Calls c c' →
      c'.formula ∈ Formula.subformulasAll c.formula.children ∧
          c'.formula.size < c.formula.size ∨
        c'.formula = c.formula ∧ c'.typecode ∈ d.schemes.keys ∧ c'.pending = c.begun ∧
          c.begun.has c'.typecode c'.formula = false) ∧
    (∀ c, {c' | d.Reaches c c'}.Finite) ∧
    ∀ c depth, c.formula.size * (d.schemes.size + 1) ≤ depth →
      d.runWithin settings depth c = (d.run settings c).mapError .failed := by
  have hkeys : ∀ l tc, d.identifiers.get? l = some tc → tc ∈ d.schemes.keys := by
    intro l tc hl
    obtain ⟨s, hs, htc⟩ := hd.exists_scheme hl
    exact Table.mem_keys_of_get? (hd.get?_schemes_of_mem hs htc)
  refine ⟨fun c outcome h => formatWith_eq_run h, ?_, d.finite_reaches, ?_⟩
  · intro c c' hcall
    rcases hcall.descends with heq | hbelow
    · obtain ⟨l, hl⟩ := hcall.registered
      obtain ⟨_, hpending, hnew⟩ := calls_iff.mp hcall
      exact .inr ⟨heq, hkeys l _ hl, hpending, hnew⟩
    · exact .inl ⟨hbelow, Formula.size_lt_of_mem_subformulasAll hbelow⟩
  · intro c depth hdepth
    have hweight := c.weight_lt_size_mul d.schemes.keys
    have hsize : d.schemes.keys.length = d.schemes.size := by simp [Table.keys, Table.size]
    rw [hsize] at hweight
    exact runWithin_eq hkeys depth c (by omega)

/-- The schemes for classes: the two variables and sums, and a bare variable. -/
def sampleSchemes : List Scheme :=
  [⟨true, "c", .node "cx" "c" [], "x", 1⟩,
    ⟨false, "c", .node "add" "c" [.node "cx" "c" [], .node "cy" "c" []], "(#x# + #y#)", 2⟩,
    ⟨true, "c", .node "cy" "c" [], "y", 3⟩, ⟨false, "c", .node "cx" "c" [], "#x#", 4⟩]

/-- The definition for sums is built from them. -/
theorem isBuiltFrom_sampleSums : sampleSums.IsBuiltFrom .sample sampleSchemes :=
  ⟨{ database := .sample, header := "", display := "###" }, rfl, rfl, rfl, by rfl⟩

/-- A formula that the bare variable would hand round for ever is done with at
a depth of two calls: it has one node, and there is one typecode. -/
theorem rendering_ends_sampleSums :
    sampleSums.IsBuiltFrom .sample sampleSchemes ∧
      sampleSums.runWithin {} 2 ⟨"c", .node "zero" "c" [], []⟩ =
        (sampleSums.run {} ⟨"c", .node "zero" "c" [], []⟩).mapError .failed :=
  ⟨isBuiltFrom_sampleSums, (rendering_ends isBuiltFrom_sampleSums {}).2.2.2 _ 2 (by decide)⟩

end Typeset.Definition

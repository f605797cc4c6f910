import ModuleSurface.Proofs.Declaration.Function
import ModuleSurface.Proofs.Outline.Composition
import ModuleSurface.Surface.Build

/-!
# Bodies do not matter

Two sources are alike if they declare the same, offsets apart, and fail for the same reason if they
fail (`Outline.Alike`).  Sources that are alike have the same declaration file, and stay alike when
statements are put in front of them or behind them.  Functions with one header and different bodies
are alike, and so a body never shows in a declaration file: `surface_withBody`.
-/

namespace ModuleSurface

open ModuleSurface.Lexing
open ModuleSurface.Callable
open ModuleSurface.Statement

/-! ## Declarations without their offsets -/

namespace Declaration

/-- The declaration without its offsets. -/
def placeless (d : Declaration) : Declaration :=
  { d with start := 0, stop := 0 }

theorem map_placeless_moved (n : Nat) (ds : List Declaration) :
    (ds.map (moved n)).map placeless = ds.map placeless := by
  rw [List.map_map]
  rfl

/-- Overloads are grouped without a look at offsets. -/
theorem groupFrom_placeless (run ds : List Declaration) :
    groupFrom (run.map placeless) (ds.map placeless) = (groupFrom run ds).map placeless :=
  groupFrom_relocate (fun _ => 0) run ds

end Declaration

/-! ## Sources that are alike -/

namespace Document

/-- A declaration is written without a look at its offsets. -/
theorem add_placeless (keepComments : Bool) (draft : Draft) (d : Declaration) :
    Draft.add keepComments draft d.placeless = Draft.add keepComments draft d := rfl

theorem build_placeless (ds : List Declaration) (imports : List ImportStatement)
    (keepComments : Bool) (preferred directives : List Text) :
    build (ds.map Declaration.placeless) imports keepComments preferred directives =
      build ds imports keepComments preferred directives := by
  have hadd : (fun draft d => Draft.add keepComments draft (Declaration.placeless d)) =
      Draft.add keepComments := by
    funext draft d
    exact add_placeless keepComments draft d
  rw [build, build, List.foldlM_map, hadd]

end Document

/-- Two answers of `surface` are the same text, or fail for the same reason. -/
def SameSurface : Except SurfaceError Text → Except SurfaceError Text → Prop
  | .ok t, .ok t' => t = t'
  | .error e, .error e' => e.error.reason = e'.error.reason
  | _, _ => False

instance : DecidableRel SameSurface
  | .ok t, .ok t' => inferInstanceAs (Decidable (t = t'))
  | .error e, .error e' => inferInstanceAs (Decidable (e.error.reason = e'.error.reason))
  | .ok _, .error _ => .isFalse id
  | .error _, .ok _ => .isFalse id

namespace Outline

/-- The sources declare the same, offsets apart, and fail for the same reason if they fail. -/
structure Alike (T T' : Text) : Prop where
  /-- What is wrong. -/
  reason : (fault? T).map (·.reason) = (fault? T').map (·.reason)
  /-- The declarations without their offsets. -/
  declarations : (ungrouped T).map Declaration.placeless = (ungrouped T').map Declaration.placeless
  /-- The imports. -/
  imports : importsIn T = importsIn T'
  /-- The directives. -/
  directives : directivesIn T = directivesIn T'

/-- What is put in front of sources leaves them alike. -/
theorem Alike.append_left {S T T' : Text} (h : Alike T T') (hS : Complete S)
    (hT : continues T = false) (hT' : continues T' = false) :
    Alike (S ++ ['\n'] ++ T) (S ++ ['\n'] ++ T') := by
  have hjoin := hS.joins hT
  have hjoin' := hS.joins hT'
  refine ⟨?_, ?_, ?_, ?_⟩
  · rw [hjoin.fault, hjoin'.fault, Option.map_map, Option.map_map]
    exact h.reason
  · rw [hjoin.declarations, hjoin'.declarations, List.map_append, List.map_append,
      Declaration.map_placeless_moved, Declaration.map_placeless_moved, h.declarations]
  · rw [hjoin.imports, hjoin'.imports, h.imports]
  · rw [hjoin.directives, hjoin'.directives]

/-- What is put behind complete sources leaves them alike. -/
theorem Alike.append_right {S S' C : Text} (h : Alike (S ++ ['\n']) (S' ++ ['\n']))
    (hS : Complete S) (hS' : Complete S') (hC : continues C = false) :
    Alike (S ++ ['\n'] ++ C) (S' ++ ['\n'] ++ C) := by
  have hjoin := hS.joins hC
  have hjoin' := hS'.joins hC
  refine ⟨?_, ?_, ?_, ?_⟩
  · rw [hjoin.fault, hjoin'.fault, Option.map_map, Option.map_map]
    rfl
  · rw [hjoin.declarations, hjoin'.declarations, List.map_append, List.map_append,
      Declaration.map_placeless_moved, Declaration.map_placeless_moved, h.declarations]
  · rw [hjoin.imports, hjoin'.imports, h.imports]
  · rw [hjoin.directives, hjoin'.directives, h.directives]

/-- Sources that are alike have the same declaration file. -/
theorem Alike.sameSurface {T T' : Text} (h : Alike T T') (options : SurfaceOptions) (file : Text) :
    SameSurface (surface options file T) (surface options file T') := by
  have hreason := h.reason
  cases hf : fault? T with
  | some f =>
    rw [hf] at hreason
    obtain ⟨f', hf', hsame⟩ := Option.map_eq_some_iff.1 hreason.symm
    rw [surface, surface, ofSource_of_fault hf, ofSource_of_fault hf']
    exact hsame.symm
  | none =>
    rw [hf] at hreason
    have hf' : fault? T' = none := Option.map_eq_none_iff.1 hreason.symm
    obtain ⟨o, ho, hdeclarations, himports, hdirectives⟩ := ofSource_of_ok hf
    obtain ⟨o', ho', hdeclarations', himports', hdirectives'⟩ := ofSource_of_ok hf'
    have hbuild : Document.build o.declarations o.imports options.keepComments options.preferred
        o.directives = Document.build o'.declarations o'.imports options.keepComments
          options.preferred o'.directives := by
      rw [← Document.build_placeless, ← Document.build_placeless o'.declarations, hdeclarations,
        hdeclarations', himports, himports', hdirectives, hdirectives', h.imports, h.directives]
      have hgroup : (Declaration.groupOverloads (ungrouped T)).map Declaration.placeless =
          (Declaration.groupOverloads (ungrouped T')).map Declaration.placeless := by
        rw [Declaration.groupOverloads, Declaration.groupOverloads,
          ← Declaration.groupFrom_placeless, ← Declaration.groupFrom_placeless, h.declarations]
      rw [hgroup]
    rw [surface, surface, ho, ho']
    simp only [hbuild]
    cases Document.build o'.declarations o'.imports options.keepComments options.preferred
        o'.directives with
    | ok document => rfl
    | error e => rfl

/-! ## Functions -/

section

variable {h : Header} {b : Text}

theorem segmentsIn_withBody (hw : h.WellFormed) (hb : Closed b) :
    segmentsIn (h.withBody b ++ ['\n']) = [⟨0, h.withBody b, none, []⟩] := by
  rw [segmentsIn, Declaration.segments_header hw hb]
  rfl

theorem withBody_eq_concat (h : Header) (b : Text) :
    h.withBody b = h.text ++ ' ' :: '{' :: b ++ ['}'] := by
  simp [Header.withBody]

theorem stripRight_withBody (h : Header) (b : Text) :
    Text.stripRight (h.withBody b) = h.withBody b := by
  rw [withBody_eq_concat]
  exact Text.stripRight_concat (by decide) _

/-- A function with its body is a complete statement. -/
theorem complete_withBody (hw : h.WellFormed) (hb : Closed b) : Complete (h.withBody b) := by
  have hfault : fault? (h.withBody b ++ ['\n']) = none := by
    rw [fault?, Declaration.segments_header hw hb]
    rfl
  refine ⟨?_, ?_, ?_, ?_⟩
  · rw [withBody_eq_concat, List.getLast?_concat]
    decide
  · obtain ⟨o, ho, -⟩ := ofSource_of_ok hfault
    exact ⟨o, ho⟩
  · rw [Declaration.segments_header hw hb]
    exact ⟨_, rfl, Nat.zero_add _⟩
  · rw [segmentsIn_withBody hw hb, awaits, awaits, stripRight_withBody]
    exact Declaration.isControlHeader_header h _

/-- What a function with its body declares. -/
theorem findings_withBody (hw : h.WellFormed) (hb : Closed b) :
    (ungrouped (h.withBody b ++ ['\n'])).map Declaration.placeless =
        (if h.isDefault && !h.isExported then [] else [Declaration.ofHeader h none 0 0]) ∧
      importsIn (h.withBody b ++ ['\n']) = [] := by
  have hheader : isControlHeader (h.withBody b) = false := Declaration.isControlHeader_header h _
  have hfound : findings (h.withBody b ++ ['\n']) false (segmentsIn (h.withBody b ++ ['\n'])) =
      {} ++ Declaration.classify (h.withBody b) 0 none ++ {} := by
    rw [segmentsIn_withBody hw hb, findings, findings, stripRight_withBody, hheader]
    rfl
  rw [ungrouped, importsIn, hfound, Declaration.classify_header hw hb]
  split
  · exact ⟨rfl, rfl⟩
  · exact ⟨rfl, rfl⟩

/-- Functions that differ in their bodies are alike. -/
theorem alike_withBody (hw : h.WellFormed) {b₁ b₂ : Text} (hb₁ : Closed b₁) (hb₂ : Closed b₂) :
    Alike (h.withBody b₁ ++ ['\n']) (h.withBody b₂ ++ ['\n']) := by
  obtain ⟨hdeclarations₁, himports₁⟩ := findings_withBody hw hb₁
  obtain ⟨hdeclarations₂, himports₂⟩ := findings_withBody hw hb₂
  refine ⟨?_, hdeclarations₁.trans hdeclarations₂.symm, himports₁.trans himports₂.symm, ?_⟩
  · rw [fault?, fault?, Declaration.segments_header hw hb₁, Declaration.segments_header hw hb₂]
  · rw [directivesIn, directivesIn, Declaration.segments_header hw hb₁,
      Declaration.segments_header hw hb₂]
    rfl

end

end Outline

/-- **Bodies do not matter.**  Between complete statements in front and behind, a function's body is
exchanged for another closed one without a change of the declaration file or of the reason why there
is none, whatever the options. -/
theorem surface_withBody {h : Header} (hw : h.WellFormed) {A b₁ b₂ C : Text}
    (hA : A = [] ∨ ∃ S, A = S ++ ['\n'] ∧ Outline.Complete S) (hb₁ : Closed b₁) (hb₂ : Closed b₂)
    (hC : continues C = false) (options : SurfaceOptions) (file : Text) :
    SameSurface (surface options file (A ++ (h.withBody b₁ ++ ['\n'] ++ C)))
      (surface options file (A ++ (h.withBody b₂ ++ ['\n'] ++ C))) := by
  apply Outline.Alike.sameSurface
  have halike := (Outline.alike_withBody hw hb₁ hb₂).append_right (Outline.complete_withBody hw hb₁)
    (Outline.complete_withBody hw hb₂) hC
  have hcontinues : ∀ b, continues (h.withBody b ++ ['\n'] ++ C) = false := by
    intro b
    rw [Header.withBody, List.append_assoc, List.append_assoc]
    exact Declaration.continues_header h _
  rcases hA with rfl | ⟨S, rfl, hS⟩
  · exact halike
  · exact halike.append_left hS (hcontinues b₁) (hcontinues b₂)

theorem surface_withBody_generic :
    let h : Header :=
      { isExported := true, isDefault := false, isAsync := true, isGenerator := false
        name := "f".toList, generics := some "T = () => void".toList
        parameters := "x: T, y = [1; 2]".toList, result := some "Promise<T>".toList }
    SameSurface
      (surface {} [] ("let a: A".toList ++ ['\n'] ++
        (h.withBody "\n  return /\x7d/.test(x) // \x7b\n".toList ++ ['\n'] ++ "let b: B".toList)))
      (surface {} [] ("let a: A".toList ++ ['\n'] ++
        (h.withBody [] ++ ['\n'] ++ "let b: B".toList))) := by
  obtain ⟨a, ha, -⟩ :=
    Outline.ofSource_of_ok (by decide +kernel : Outline.fault? "let a: A\n".toList = none)
  refine surface_withBody ⟨by decide, ?_, ⟨by decide +kernel, by decide⟩, ?_⟩
    (.inr ⟨"let a: A".toList, rfl, ⟨by decide, ⟨a, ha⟩,
      ⟨⟨0, "let a: A".toList, none, []⟩, by decide +kernel, rfl⟩, by decide +kernel⟩⟩)
    (by decide +kernel) (by decide +kernel) (by decide) {} []
  · rintro g ⟨⟩
    exact ⟨⟨by decide +kernel, by decide, by decide +kernel⟩, by decide +kernel⟩
  · rintro r ⟨⟩
    exact ⟨⟨by decide +kernel, by decide, by decide +kernel⟩, by decide⟩

/-- A header in one line without a slash, of a name and parts that are closed. -/
structure ClosedParts (h : Header) : Prop where
  /-- The name. -/
  name : ∀ c ∈ h.name, Text.isIdentChar c = true
  /-- No slash, and one line. -/
  line : '/' ∉ h.text ∧ '\n' ∉ h.text
  /-- The type parameters. -/
  generics : ∀ g, h.generics = some g → Closed g
  /-- The parameters. -/
  parameters : Closed h.parameters
  /-- The return type. -/
  result : ∀ r, h.result = some r → Closed r ∧ Text.isBlankText r = false

/-- It is not enough that the parts of a header are closed.  Behind a semicolon in the return type
another statement begins, and what looks like a body is a value in it.  Type parameters that end
with an equals sign make an arrow of the angle bracket behind them, and one in the body closes the
list. -/
theorem not_surface_withBody_of_closed :
    (∃ (h : Header) (b₁ b₂ : Text), ClosedParts h ∧ h.generics = none ∧ Closed b₁ ∧ Closed b₂ ∧
      ¬ SameSurface (surface {} [] (h.withBody b₁ ++ ['\n']))
        (surface {} [] (h.withBody b₂ ++ ['\n']))) ∧
    ∃ (h : Header) (b₁ b₂ : Text), ClosedParts h ∧ ';' ∉ h.text ∧
      (∀ g, h.generics = some g → '<' ∉ g ∧ '>' ∉ g) ∧ Closed b₁ ∧ Closed b₂ ∧
      ¬ SameSurface (surface {} [] (h.withBody b₁ ++ ['\n']))
        (surface {} [] (h.withBody b₂ ++ ['\n'])) := by
  refine ⟨?_, ?_⟩
  · refine ⟨⟨false, false, false, false, "f".toList, none, [],
      some "void; export const x =".toList⟩, " a: 1 ".toList, [], ?_, rfl, by decide +kernel,
      by decide +kernel, by decide +kernel⟩
    refine ⟨by decide, by decide, ?_, by decide +kernel, ?_⟩
    · rintro g ⟨⟩
    · rintro r ⟨⟩
      exact ⟨by decide +kernel, by decide⟩
  · refine ⟨⟨false, false, false, false, "f".toList, some "T =".toList, "x: T".toList, none⟩,
      " a > (y: Z) ".toList, [], ?_, by decide, ?_, by decide +kernel, by decide +kernel,
      by decide +kernel⟩
    · refine ⟨by decide, by decide, ?_, by decide +kernel, ?_⟩
      · rintro g ⟨⟩
        decide +kernel
      · rintro r ⟨⟩
    · rintro g ⟨⟩
      decide

end ModuleSurface

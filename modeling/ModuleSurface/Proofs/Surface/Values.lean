import ModuleSurface.Proofs.Declaration.Variable
import ModuleSurface.Proofs.Outline.Composition
import ModuleSurface.Surface.Build

/-!
# The surface of exported values

The declaration file of a module that exports one value has the type of that value: in a constant
with every leaf as it is written, in a variable with numbers and truth values widened
(`surface_value`).
-/

namespace ModuleSurface

open ModuleSurface.Lexing
open ModuleSurface.Narrowing
open ModuleSurface.Statement
open ModuleSurface.Declaration

variable (isConst : Bool) (name : Identifier) (v : Value)

/-- The outline of the module is the variable. -/
theorem ofSource_valueStatement (hname : name.text ≠ "enum".toList) :
    Outline.ofSource (valueStatement isConst name v ++ ['\n']) =
      .ok ⟨[ofValueStatement isConst name v], [], [], []⟩ := by
  have hraw : Text.stripRight (valueStatement isConst name v) = valueStatement isConst name v :=
    (tight_valueStatement isConst name v).stripRight_eq
  have hcontrol : isControlHeader (valueStatement isConst name v) = false := rfl
  have hfound : Outline.findings (valueStatement isConst name v ++ ['\n']) false
      [⟨0, valueStatement isConst name v, none, []⟩] =
        .one (ofValueStatement isConst name v) := by
    simp only [Outline.findings, hraw, hcontrol, classify_valueStatement isConst name v hname]
    rfl
  have hcut : Outline.segmentsOf [.segment ⟨0, valueStatement isConst name v, none, []⟩] =
      [⟨0, valueStatement isConst name v, none, []⟩] := rfl
  simp only [Outline.ofSource, segments_valueStatement, hcut, hfound]
  rfl

/-- The type of the variable is the type of its value. -/
theorem variableType_ofValueStatement :
    (ofValueStatement isConst name v).variableType = v.write (Style.type isConst) := by
  obtain ⟨c, t, hcons⟩ := List.exists_cons_of_ne_nil v.written_print.tight.ne_nil
  have hvalue : (ofValueStatement isConst name v).value = some (c :: t) := congrArg some hcons
  have hdeclared : (ofValueStatement isConst name v).declaredType = none := rfl
  have hconst : ((ofValueStatement isConst name v).firstModifier "const" == "const".toList) =
      isConst := by
    cases isConst <;> rfl
  simp only [variableType, hvalue, hdeclared, hconst]
  rw [← hcons]
  exact (v.infer_print isConst).1

/-- The document of the variable is its declaration. -/
theorem build_ofValueStatement (keepComments : Bool) (preferred : List Text) :
    Document.build [ofValueStatement isConst name v] [] keepComments preferred [] =
      .ok { declarations := ["export declare ".toList ++ bindingKeyword isConst ++ " ".toList ++
        name.text ++ ": ".toList ++ v.write (Style.type isConst) ++ ";".toList] } := by
  have htext : (ofValueStatement isConst name v).variableText =
      "export declare ".toList ++ bindingKeyword isConst ++ " ".toList ++ name.text ++
        ": ".toList ++ v.write (Style.type isConst) ++ ";".toList := by
    rw [variableText, variableType_ofValueStatement]
    rfl
  have hadd : Document.Draft.add keepComments ⟨{ directives := [] }, []⟩
      (ofValueStatement isConst name v) =
        .ok ⟨{ declarations := [(ofValueStatement isConst name v).variableText] },
          [(ofValueStatement isConst name v).variableText]⟩ := rfl
  have himports : ∀ used, RetainedImport.ofUsage [] used preferred = [] := by
    intro used
    simp [RetainedImport.ofUsage, RetainedImport.sort]
  rw [← htext, Document.build, List.foldlM_cons, hadd]
  simp only [himports, List.foldlM_nil]
  rfl

/-- A document of one chunk is that chunk in a line of its own. -/
theorem Document.render_declaration {t : Text} (ht : t ≠ []) :
    ({ declarations := [t] } : Document).render = t ++ ['\n'] := by
  obtain ⟨c, r, rfl⟩ := List.exists_cons_of_ne_nil ht
  have hbody : ({ declarations := [c :: r] } : Document).bodyText = c :: r := by
    simp [Document.bodyText, Document.bodyChunks, Text.join]
  have hhead : ({ declarations := [c :: r] } : Document).headText = [] := by
    simp [Document.headText, Text.join]
  rw [Document.render, hhead, hbody]
  rfl

theorem surface_valueStatement (hname : name.text ≠ "enum".toList) (options : SurfaceOptions)
    (file : Text) :
    surface options file (valueStatement isConst name v ++ ['\n']) =
      .ok ("export declare ".toList ++ bindingKeyword isConst ++ " ".toList ++ name.text ++
        ": ".toList ++ v.write (Style.type isConst) ++ ";".toList ++ ['\n']) := by
  simp only [surface, ofSource_valueStatement isConst name v hname, build_ofValueStatement]
  rw [Document.render_declaration (by simp)]

/-- **The surface of an exported value is its type.**  A constant keeps the text of every leaf and
turns arrays into tuples; a variable widens numbers and truth values, and an array in it has the
types of its elements, each once.  This holds at any depth, and whatever stands in the strings. -/
theorem surface_value (options : SurfaceOptions) (file : Text) (name : Identifier)
    (hname : name.text ≠ "enum".toList) (v : Value) :
    surface options file
        ("export const ".toList ++ name.text ++ " = ".toList ++ v.print ++ "\n".toList) =
      .ok ("export declare const ".toList ++ name.text ++ ": ".toList ++ v.write .constType ++
        ";\n".toList) ∧
    surface options file
        ("export let ".toList ++ name.text ++ " = ".toList ++ v.print ++ "\n".toList) =
      .ok ("export declare let ".toList ++ name.text ++ ": ".toList ++ v.write .mutableType ++
        ";\n".toList) := by
  have hconst := surface_valueStatement true name v hname options file
  have hlet := surface_valueStatement false name v hname options file
  unfold valueStatement assignment at hconst hlet
  constructor
  · simpa [bindingKeyword, Style.type] using hconst
  · simpa [bindingKeyword, Style.type] using hlet

/-- An array with a string that looks like the end of the statement, inside an object. -/
theorem surface_value_nested :
    "enumerated".toList ≠ "enum".toList ∧
    surface {} [] "export const enumerated = \x7b as: ['];// ', 1, 1, \x7b\x7d] \x7d\n".toList =
      .ok ("export declare const enumerated: ".toList ++
        "\x7b as: readonly ['];// ', 1, 1, \x7b\x7d] \x7d;\n".toList) ∧
    surface {} [] "export let enumerated = \x7b as: ['];// ', 1, 1, \x7b\x7d] \x7d\n".toList =
      .ok ("export declare let enumerated: ".toList ++
        "\x7b as: Array<'];// ' | number | \x7b\x7d> \x7d;\n".toList) := by
  have hone : Literal.isNumber ['1'] = true ∧ ∀ c ∈ ['1'], Text.isBlank c = false := by decide
  have h := surface_value {} [] ⟨"enumerated".toList, by decide⟩ (by decide)
    (.object [(⟨"as".toList, by decide⟩, .array
      [.leaf (.string .single ⟨"];// ".toList, by decide⟩), .leaf (.number ⟨['1'], hone⟩),
        .leaf (.number ⟨['1'], hone⟩), .object []])])
  simp only [Value.print, Value.write_object, Value.write_array, Value.write_leaf,
    List.map_cons, List.map_nil] at h
  exact ⟨by decide, h⟩

end ModuleSurface

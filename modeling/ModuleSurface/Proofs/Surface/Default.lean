import ModuleSurface.Proofs.Narrowing.Relaid
import ModuleSurface.Proofs.Outline.Composition
import ModuleSurface.Proofs.Surface.Chunks

/-!
# The default export of a value

A value that a module exports by default is written with the type that is inferred for it with its
white space collapsed.  That is the type of the value as it stands in the source, where collapsing
changes nothing but the layout (`defaultExport_value`).
-/

namespace ModuleSurface

open ModuleSurface.Narrowing
open ModuleSurface.Spacing

namespace Declaration

variable {d : Declaration}

/-- The chunks of a value that is exported by default. -/
theorem chunks_value (hsection : d.section? = some .defaultExport)
    (hkind : d.kind ≠ .function ∧ d.kind ≠ .classType ∧ d.kind ≠ .interface) {e : Text}
    (hvalue : d.value = some e) (hname : Text.isIdentifier (Text.collapse e) = false)
    (keepComments : Bool) :
    d.chunks keepComments =
      ["declare const _default: ".toList ++ (infer (Text.collapse e) false).text ++ ";".toList,
        "export default _default;".toList] := by
  obtain ⟨hfunction, hclass, hinterface⟩ := hkind
  have hlines : d.chunkLines =
      [[{ text :=
          "declare const _default: ".toList ++ (infer (Text.collapse e) false).text ++
            ";".toList }],
        [{ text := "export default _default;".toList }]] := by
    simp only [chunkLines, hsection, hvalue, Option.getD_some, hname]
    cases hkind : d.kind with
    | function => exact absurd hkind hfunction
    | classType => exact absurd hkind hclass
    | interface => exact absurd hkind hinterface
    | _ => rfl
  rw [chunks, hlines]
  simp

end Declaration

/-- An object over several lines, with a comment and a method. -/
def commentedObject : List Fragment :=
  let sign (c : { c : Char // Visible c }) : Fragment := .piece (.sign c)
  let newline : Fragment := .piece (.gap ⟨"\n  ".toList, by decide⟩)
  let space : Fragment := .piece (.gap ⟨" ".toList, by decide⟩)
  [sign ⟨'\x7b', by decide⟩, newline, sign ⟨'a', by decide⟩, sign ⟨':', by decide⟩, space,
    .piece (.literal ⟨.quote .single, "b c".toList, by decide⟩), sign ⟨',', by decide⟩, space,
    .comment ⟨" d\n ".toList, by decide⟩, newline, sign ⟨'f', by decide⟩, sign ⟨'(', by decide⟩,
    sign ⟨'x', by decide⟩, sign ⟨')', by decide⟩, space, sign ⟨'\x7b', by decide⟩,
    sign ⟨'\x7d', by decide⟩, newline, sign ⟨'\x7d', by decide⟩]

end ModuleSurface

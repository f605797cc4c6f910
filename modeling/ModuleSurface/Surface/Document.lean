import ModuleSurface.Text.Basic

/-!
# Declaration files

A declaration file has sections that are written in a fixed order, whatever the order in which they
were filled: directives and imports, and behind a blank line type re-exports, declarations, value
re-exports and the default export.
-/

namespace ModuleSurface

/-- The sections of a declaration file, each a list of chunks of text. -/
structure Document where
  /-- The directives to the compiler. -/
  directives : List Text := []
  /-- The import statements. -/
  imports : List Text := []
  /-- The re-exports that are about types only. -/
  typeReExports : List Text := []
  /-- The declarations. -/
  declarations : List Text := []
  /-- The re-exports of values. -/
  valueReExports : List Text := []
  /-- The default export. -/
  defaultExport : List Text := []
  deriving DecidableEq, Repr

namespace Document

/-- The chunks behind the imports in their order. -/
def bodyChunks (d : Document) : List Text :=
  d.typeReExports ++ d.declarations ++ d.valueReExports ++ d.defaultExport

/-- Everything behind the imports. -/
def bodyText (d : Document) : Text :=
  Text.join "\n".toList d.bodyChunks

/-- The directives and the imports. -/
def headText (d : Document) : Text :=
  Text.join "\n".toList (d.directives ++ d.imports)

/-- The text of the file.  A document without text is an empty file. -/
def render (d : Document) : Text :=
  match d.headText, d.bodyText with
  | [], [] => []
  | [], body => body ++ "\n".toList
  | head, [] => head ++ "\n".toList
  | head, body => head ++ "\n\n".toList ++ body ++ "\n".toList

end Document

end ModuleSurface

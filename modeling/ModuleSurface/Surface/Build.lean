import ModuleSurface.Import.Usage
import ModuleSurface.Outline
import ModuleSurface.Surface.Document
import ModuleSurface.Surface.Render

/-!
# The surface of a module

`Document.build` puts the declarations of a module into the sections of a declaration file and keeps
the imports that they mention; `surface` goes all the way from a source to the text of its
declaration file.
-/

namespace ModuleSurface

open ModuleSurface.Lexing

namespace Document

/-- A document that is being filled, with the chunks that count as uses of imports. -/
structure Draft where
  /-- The sections filled so far. -/
  document : Document
  /-- The chunks that may mention imported names, in source order. -/
  usage : List Text
  deriving DecidableEq, Repr

/-- The draft with one more declaration.  Names handed on from another module are no uses of
imports. -/
def Draft.add (keepComments : Bool) (draft : Draft) (d : Declaration) : Except ScanError Draft :=
  let doc := draft.document
  if d.kind = .imports then .ok draft
  else if d.isDefault then
    (d.defaultChunks keepComments).map fun chunks =>
      { document := { doc with defaultExport := doc.defaultExport ++ chunks }
        usage := draft.usage ++ chunks }
  else if d.kind = .exports then
    let text := d.passthroughText
    .ok
      { document :=
          if d.isTypeOnly then { doc with typeReExports := doc.typeReExports ++ [text] }
          else { doc with valueReExports := doc.valueReExports ++ [text] }
        usage := if d.source.isNone then draft.usage ++ [text] else draft.usage }
  else
    (d.text? keepComments).map fun
      | none => draft
      | some text =>
        { document := { doc with declarations := doc.declarations ++ [text] }
          usage := draft.usage ++ [text] }

/-- The document of a list of declarations and imports. -/
def build (declarations : List Declaration) (imports : List ImportStatement) (keepComments : Bool)
    (preferred directives : List Text) : Except ScanError Document :=
  (declarations.foldlM (Draft.add keepComments) ⟨{ directives := directives }, []⟩).map fun draft =>
    let used := Text.join "\n".toList draft.usage
    { draft.document with
      imports := (RetainedImport.ofUsage imports used preferred).map (·.text) }

end Document

/-- Why a module has no declaration file. -/
structure SurfaceError where
  /-- What is wrong, and where. -/
  error : ScanError
  /-- The file of the module, if the error is about its text. -/
  file : Option Text
  deriving DecidableEq, Repr

/-- The line shown for an error. -/
def SurfaceError.message (e : SurfaceError) : Text :=
  (e.error.map Reason.message).describe e.file

/-- How declaration files are written. -/
structure SurfaceOptions where
  /-- Are documentation comments kept? -/
  keepComments : Bool := true
  /-- The beginnings of the sources whose imports come first. -/
  preferred : List Text := ["bun".toList]
  deriving DecidableEq, Repr

/-- The text of the declaration file for a module. -/
def surface (options : SurfaceOptions) (file text : Text) : Except SurfaceError Text :=
  match Outline.ofSource text with
  | .error e => .error ⟨e, some file⟩
  | .ok outline =>
    match Document.build outline.declarations outline.imports options.keepComments options.preferred
        outline.directives with
    | .error e => .error ⟨e, none⟩
    | .ok document => .ok document.render

end ModuleSurface

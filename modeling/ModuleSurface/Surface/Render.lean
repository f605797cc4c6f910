import ModuleSurface.ClassBody.Split
import ModuleSurface.Declaration.Basic
import ModuleSurface.Import.Basic

/-!
# Writing declarations

The text of a declaration in a declaration file: headers without bodies, narrow types in place of
values, and classes reduced to the lines of their members.
-/

namespace ModuleSurface.Declaration

open ModuleSurface.Lexing
open ModuleSurface.Narrowing

/-! ## Pieces -/

/-- A text with the documentation comment in front of it. -/
def withDoc (text : Text) (doc : Option Text) (keepComments : Bool) : Text :=
  match doc with
  | some (c :: t) => if keepComments then Text.strip (c :: t) ++ "\n".toList ++ text else text
  | _ => text

/-- The keywords in front of a declaration. -/
def keywords (d : Declaration) : Text :=
  if d.isExported then "export declare ".toList else "declare ".toList

/-- The keywords in front of the default export. -/
def defaultKeywords : Text :=
  "export default ".toList

/-- A body as written; the word `None` stands for one that is missing. -/
def bodyText (d : Declaration) : Text :=
  d.body.getD "None".toList

/-- A body that is there and not empty, or an empty block. -/
def bodyOrEmpty (d : Declaration) : Text :=
  match d.body with
  | some (c :: t) => c :: t
  | _ => "\x7b\x7d".toList

/-- The first modifier, or a keyword in its place. -/
def firstModifier (d : Declaration) (otherwise : String) : Text :=
  d.modifiers.head?.getD otherwise.toList

/-- A block of indented lines. -/
def block (lines : List Text) : Text :=
  if lines.isEmpty then "\x7b\x7d".toList
  else
    "\x7b\n".toList ++ Text.join "\n".toList (lines.map ("  ".toList ++ ·)) ++ "\n\x7d".toList

/-- A clause of the header, if its types are there and not empty. -/
def heritageClause (keyword : String) : Option Text → Text
  | some (c :: t) => " ".toList ++ keyword.toList ++ " ".toList ++ c :: t
  | _ => []

/-- The types that a class or an interface builds on. -/
def heritage (d : Declaration) : Text :=
  heritageClause "extends" d.extended ++ heritageClause "implements" d.implemented

/-! ## Functions -/

/-- The line of one signature. -/
def functionLine (keywords name : Text) (s : Signature) : Text :=
  let returnType :=
    match s.returnType with
    | some (c :: t) => c :: t
    | _ => Signature.defaultReturnType s.isAsync s.isGenerator
  keywords ++ "function ".toList ++ name ++ s.generics.getD [] ++ "(".toList ++
    parameterList s.parameters ++ "): ".toList ++ returnType ++ ";".toList

/-- The signature of a function; without one it is put together from the declaration. -/
def ownSignature (d : Declaration) : Signature :=
  d.signature.getD
    { generics := d.generics, parameters := d.parameters.getD [], returnType := d.returnType }

/-- The lines of a function: one for each overload, and its own. -/
def functionText (d : Declaration) (keepComments : Bool) (keywords : Text) : Text :=
  let overloads :=
    d.overloads.map fun s => withDoc (functionLine keywords d.name s) s.doc keepComments
  let own := withDoc (functionLine keywords d.name d.ownSignature) d.doc keepComments
  Text.join "\n".toList (overloads ++ [own])

/-! ## Variables -/

/-- The type of a variable: the written one, unless it is broad and the value of a constant says
more; else the type of the value. -/
def variableType (d : Declaration) : Text :=
  let isConst := d.firstModifier "const" == "const".toList
  match d.declaredType, d.value with
  | some (c :: t), some (v :: value) =>
    if isConst && isBroad (c :: t) then
      let inferred := infer (v :: value) true
      if inferred.isUnknown then c :: t else inferred.text
    else c :: t
  | some (c :: t), _ => c :: t
  | _, some (v :: value) => (infer (v :: value) isConst).text
  | _, _ => "any".toList

/-- A variable. -/
def variableText (d : Declaration) : Text :=
  d.keywords ++ d.firstModifier "const" ++ " ".toList ++ d.name ++ ": ".toList ++ d.variableType ++
    ";".toList

/-! ## Types, classes and modules -/

/-- An interface. -/
def interfaceText (d : Declaration) (keywords : Text) : Text :=
  keywords ++ "interface ".toList ++ d.name ++ d.generics.getD [] ++ d.heritage ++ " ".toList ++
    d.bodyText

/-- A type alias. -/
def aliasText (d : Declaration) : Text :=
  d.keywords ++ "type ".toList ++ d.name ++ d.generics.getD [] ++ " = ".toList ++ d.bodyText ++
    ";".toList

/-- A class with the lines of its members. -/
def classText (d : Declaration) (keepComments : Bool) (keywords : Text) : Except ScanError Text :=
  (ClassBody.lines d.bodyOrEmpty keepComments).map fun lines =>
    let marks := if d.modifiers.contains "abstract".toList then "abstract ".toList else []
    let name := if d.name.isEmpty then [] else " ".toList ++ d.name
    keywords ++ marks ++ "class".toList ++ name ++ d.generics.getD [] ++ d.heritage ++ " ".toList ++
      block lines

/-- An enumeration. -/
def enumText (d : Declaration) : Text :=
  let marks := if d.modifiers.contains "const".toList then "const ".toList else []
  d.keywords ++ marks ++ "enum ".toList ++ d.name ++ " ".toList ++ d.bodyText

/-- A namespace, a module or the global scope.  A module with a quoted name is never exported. -/
def scopeText (d : Declaration) : Text :=
  if d.name = "global".toList then "declare global ".toList ++ d.bodyOrEmpty
  else
    let head :=
      if d.name.head?.any fun c => c == '\'' || c == '"' then "declare module ".toList ++ d.name
      else d.keywords ++ d.firstModifier "namespace" ++ " ".toList ++ d.name
    match d.body with
    | none => head ++ ";".toList
    | some body => head ++ " ".toList ++ body

/-! ## Declarations and exports -/

/-- The text of a declaration.  Imports and exports have sections of their own. -/
def text? (d : Declaration) (keepComments : Bool) : Except ScanError (Option Text) :=
  let documented (text : Text) : Option Text := some (withDoc text d.doc keepComments)
  match d.kind with
  | .function => .ok (some (d.functionText keepComments d.keywords))
  | .binding => .ok (documented d.variableText)
  | .interface => .ok (documented (d.interfaceText d.keywords))
  | .typeAlias => .ok (documented d.aliasText)
  | .classType => (d.classText keepComments d.keywords).map documented
  | .enum => .ok (documented d.enumText)
  | .scope => .ok (documented d.scopeText)
  | .imports | .exports => .ok none

/-- The chunks of the default export.  A value that is no name gets a declaration of its own. -/
def defaultChunks (d : Declaration) (keepComments : Bool) : Except ScanError (List Text) :=
  let documented (text : Text) : List Text := [withDoc text d.doc keepComments]
  match d.kind with
  | .function => .ok [d.functionText keepComments defaultKeywords]
  | .classType => (d.classText keepComments defaultKeywords).map documented
  | .interface => .ok (documented (d.interfaceText defaultKeywords))
  | _ =>
    let expression := Text.collapse (d.value.getD [])
    if Text.isIdentifier expression then .ok [defaultKeywords ++ expression ++ ";".toList]
    else
      .ok
        ["declare const _default: ".toList ++ (infer expression false).text ++ ";".toList,
          "export default _default;".toList]

/-- An export that is handed on as it stands. -/
def passthroughText (d : Declaration) : Text :=
  let clause := Text.collapse (d.value.getD [])
  let keyword :=
    if d.isTypeOnly && clause.head? != some '=' then "export type ".toList else "export ".toList
  keyword ++ clause ++ ";".toList

end ModuleSurface.Declaration

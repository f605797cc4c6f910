import ModuleSurface.Declaration.Classify
import ModuleSurface.Declaration.Overload

/-!
# The outline of a module

`Outline.ofSource` cuts a module into its statements and collects what they declare: the
declarations with overloads grouped, the imports, the directives in front of the first statement,
and notices about what was passed over.
-/

namespace ModuleSurface

open ModuleSurface.Lexing
open ModuleSurface.Statement

/-- What a module declares. -/
structure Outline where
  /-- The declarations in order, with overloads grouped. -/
  declarations : List Declaration
  /-- The imports in order. -/
  imports : List ImportStatement
  /-- The directives in front of the first statement. -/
  directives : List Text
  /-- The notices in order. -/
  notices : List Notice
  deriving DecidableEq, Repr

namespace Outline

/-- Is the comment line a directive to the compiler: three slashes and one closed tag of a known
name? -/
def isDirective (line : Text) : Bool :=
  match (Text.after? "///".toList line).map Text.stripLeft with
  | some ('<' :: tag) =>
    (["reference", "amd-module", "amd-dependency"].map String.toList).any fun name =>
      Text.startsWithWord name tag &&
        let attributes := (tag.drop name.length).takeWhile (· != '>')
        attributes.getLast? == some '/' &&
          match (tag.drop name.length).drop attributes.length with
          | '>' :: rest => Text.isBlankText rest
          | _ => false
  | _ => false

/-- What the segments declare.  `skipping` says that the first of them is controlled by a header in
front of it and declares nothing. -/
def findings (text : Text) (skipping : Bool) : List Segment → Finding
  | [] => {}
  | s :: ss =>
    let raw := Text.stripRight s.text
    let ignored : Finding :=
      { notices := s.ignored.map fun (c, i) => .unbalancedBracket c (Located.lineAt text i) }
    let found :=
      if skipping then (Finding.notice (.controlledStatement s.start), false)
      else if isControlHeader raw then ({}, true)
      else (Declaration.classify raw s.start s.doc, false)
    ignored ++ found.1 ++ findings text found.2 ss

/-- The segments among the pieces. -/
def segmentsOf (pieces : List Piece) : List Segment :=
  pieces.filterMap fun
    | .segment s => some s
    | .header _ => none

/-- The directives among the pieces. -/
def directivesOf (pieces : List Piece) : List Text :=
  pieces.filterMap fun
    | .header line => if isDirective line then some line else none
    | .segment _ => none

/-- The outline of a module, or the place where it cannot be cut into statements. -/
def ofSource (text : Text) : Except ScanError Outline :=
  let cut := segments .module text
  match cut.ending.fault? with
  | some f => .error (f.locate text)
  | none =>
    let found := findings text false (segmentsOf cut.pieces)
    .ok
      { declarations := Declaration.groupOverloads found.declarations
        imports := found.imports
        directives := directivesOf cut.pieces
        notices := found.notices }

end Outline

end ModuleSurface

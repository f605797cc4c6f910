import ModuleSurface.ClassBody.Member
import ModuleSurface.Statement.Segment

/-!
# Class bodies

A class body is cut into its members, and every member into its declaration lines; documentation
comments go in front of the lines of their members.
-/

namespace ModuleSurface.ClassBody

open ModuleSurface.Lexing
open ModuleSurface.Statement

/-- A member of a class. -/
structure ClassMember where
  /-- Its text. -/
  text : Text
  /-- The documentation comment in front of it. -/
  doc : Option Text
  deriving DecidableEq, Repr

/-- The lines of a documentation comment with a common indentation.  A star at the start of a line
but the first is moved under the star of the first line. -/
def docLines (doc indent : Text) : List Text :=
  match (Text.lines (Text.strip doc)).map Text.strip with
  | [] => []
  | first :: others =>
    (indent ++ first) :: others.map fun line =>
      indent ++ (if line.head? == some '*' then ' ' :: line else line)

/-- The text of a body without the curly brackets around it. -/
def interior (body : Text) : Text :=
  let whole := Text.strip body
  if whole.head? == some '{' && whole.getLast? == some '}' then (whole.drop 1).dropLast else whole

/-- The member that a piece of a class body is, unless it is blank. -/
def ofPiece? : Piece → Option ClassMember
  | .header _ => none
  | .segment s =>
    let text := Text.strip s.text
    if text.isEmpty then none else some { text := text, doc := s.doc }

/-- The members of a class body.  A block comment that does not end hides what follows it. -/
def splitMembers (body : Text) : Except ScanError (List ClassMember) :=
  let text := interior body
  let cut := segments .classBody text
  match cut.ending with
  | .faulty f => .error (f.locate text)
  | _ => .ok (cut.pieces.filterMap ofPiece?)

/-- The declaration lines of a class body. -/
def lines (body : Text) (keepComments : Bool) : Except ScanError (List Text) :=
  (splitMembers body).map fun members =>
    members.flatMap fun m =>
      match memberLines m.text with
      | [] => []
      | declared =>
        match m.doc with
        | some (c :: doc) => if keepComments then docLines (c :: doc) [] ++ declared else declared
        | _ => declared

end ModuleSurface.ClassBody

import ModuleSurface.Config.Variables
import ModuleSurface.Text.Lines

/-!
# Files of variables

A file of variables has a line `NAME=value` for each variable.  The word `export` may stand in front
of a name, and a name may stand without a value.  A value is in quotes, and may then go over several
lines and have escapes, or it goes up to the end of the line or a comment.  A line that is malformed
is left out.

A value may refer to other variables: `${NAME}` stands for the value of a variable that comes
earlier in the file, or else of the environment, and `${NAME:-default}` has a text to use if there
is no such variable.  This is how the package `pydantic-settings` has such a file read.
-/

namespace ModuleSurface.Config.VariableFile

/-! ## Parts of a line -/

/-- The end of a line. -/
def isBreak (c : Char) : Bool :=
  c == '\n' || c == '\r'

/-- White space within a line. -/
def isGap (c : Char) : Bool :=
  Text.isBlank c && !isBreak c

/-- The text behind the line that it begins with. -/
def nextLine (t : Text) : Text :=
  (t.dropWhile fun c => !isBreak c).drop 1

/-- The text behind the word `export` and white space, if it begins so. -/
def skipExport (t : Text) : Text :=
  match Text.after? "export".toList t with
  | some (c :: u) => if isGap c then u.dropWhile isGap else t
  | _ => t

/-- The name that a text begins with, in single quotes or without quotes, and the rest.  There is
none in front of a comment. -/
def readName? (t : Text) : Option (Option Text × Text) :=
  match t with
  | '#' :: _ => some (none, t)
  | '\'' :: u =>
    let name := u.takeWhile (· != '\'')
    match u.drop name.length with
    | _ :: rest => if name.isEmpty then none else some (some name, rest)
    | [] => none
  | t =>
    let name := t.takeWhile fun c => c != '=' && c != '#' && !Text.isBlank c
    if name.isEmpty then none else some (some name, t.drop name.length)

/-- The text up to the closing quote, and the rest behind it.  A quote behind a backslash closes
only if no other quote does, unless the backslash is itself behind one. -/
def untilClosing? (quote : Char) : Text → Option (Text × Text)
  | [] => none
  | [c] => if c == quote then some ([], []) else none
  | c :: d :: t =>
    if c == quote then some ([], d :: t)
    else if c == '\\' && d == '\\' then
      (untilClosing? quote t).map fun r => (c :: d :: r.1, r.2)
    else if c == '\\' && d == quote then
      match untilClosing? quote t with
      | some (v, r) => some (c :: d :: v, r)
      | none => some ([c], t)
    else (untilClosing? quote (d :: t)).map fun r => (c :: r.1, r.2)

example : untilClosing? '"' "a\\\\\" b\"".toList = some ("a\\\\".toList, " b\"".toList) := by decide
example : untilClosing? '"' "a\\\" b\"".toList = some ("a\\\" b".toList, []) := by decide

/-- The escapes in single quotes. -/
def verbatimEscapes : List (Char × Char) :=
  [('\\', '\\'), ('\'', '\'')]

/-- The escapes in double quotes. -/
def escapes : List (Char × Char) :=
  verbatimEscapes ++ [('"', '"'), ('a', '\x07'), ('b', '\x08'), ('f', '\x0C'), ('n', '\n'),
    ('r', '\r'), ('t', '\t'), ('v', '\x0B')]

/-- The text with its escapes replaced.  A backslash that begins none stays. -/
def unescape (escapes : List (Char × Char)) : Text → Text
  | [] => []
  | [c] => [c]
  | c :: d :: t =>
    match if c == '\\' then escapes.lookup d else none with
    | some e => e :: unescape escapes t
    | none => c :: unescape escapes (d :: t)

/-- The text in front of a comment, which begins with white space and a number sign. -/
def uncommented : Text → Text
  | [] => []
  | c :: t =>
    if Text.isBlank c && (t.dropWhile Text.isBlank).head? == some '#' then []
    else c :: uncommented t

/-- The value behind an equals sign and white space, and the rest.  A value without quotes goes up
to a comment, which may also stand where a value is expected. -/
def readValue? (t : Text) : Option (Text × Text) :=
  match t.dropWhile isGap with
  | '\'' :: u => (untilClosing? '\'' u).map fun r => (unescape verbatimEscapes r.1, r.2)
  | '"' :: u => (untilClosing? '"' u).map fun r => (unescape escapes r.1, r.2)
  | _ =>
    let written := t.takeWhile fun c => !isBreak c
    some (Text.strip (uncommented written), t.drop written.length)

example : readValue? " # c".toList = some ([], []) := by decide
example : readValue? "#b # c".toList = some ("#b".toList, []) := by decide

/-- The text behind a comment, if one is next. -/
def skipComment (t : Text) : Text :=
  let u := t.dropWhile isGap
  if u.head? == some '#' then u.dropWhile fun c => !isBreak c else t

/-- The text behind the end of the line, if it is next. -/
def endLine? (t : Text) : Option Text :=
  match t.dropWhile isGap with
  | [] => some []
  | c :: u => if isBreak c then some u else none

/-! ## Lines -/

/-- A variable with its value, if it has one. -/
abbrev Binding := Text × Option Text

/-- The value behind a name, if there is one, and the rest.  If it is malformed, the text from there
on. -/
def readAssigned (t : Text) : Except Text (Option Text × Text) :=
  match t.dropWhile isGap with
  | '=' :: u =>
    match readValue? u with
    | some (value, rest) => .ok (some value, rest)
    | none => .error u
  | u => .ok (none, u)

/-- The variable that a text begins with, if there is one, and the text behind its line. -/
def readBinding (t : Text) : Option Binding × Text :=
  let t := skipExport (t.dropWhile Text.isBlank)
  match readName? t with
  | none => (none, nextLine t)
  | some (name?, t) =>
    match readAssigned t with
    | .error t => (none, nextLine t)
    | .ok (value, t) =>
      let t := skipComment t
      match endLine? t with
      | none => (none, nextLine t)
      | some rest => (name?.map fun name => (name, value), rest)

/-- The variables of a text in order. -/
def readBindings (t : Text) : List Binding :=
  match readBinding t with
  | (b?, rest) => if _h : rest.length < t.length then b?.toList ++ readBindings rest else b?.toList
termination_by t.length

/-! ## References -/

/-- A reference to a variable behind its dollar sign: the name, the default and the rest. -/
def reference? (t : Text) : Option (Text × Text × Text) :=
  match t with
  | '\x7b' :: u =>
    let name := u.takeWhile fun c => c != '\x7d' && c != ':'
    match u.drop name.length with
    | '\x7d' :: rest => some (name, [], rest)
    | ':' :: '-' :: v =>
      let default := v.takeWhile (· != '\x7d')
      match v.drop default.length with
      | _ :: rest => some (name, default, rest)
      | [] => none
    | _ => none
  | _ => none

/-- The text with every reference replaced by the value of its variable.  A variable without a value
stands for nothing. -/
def expand (vars : Variables) (t : Text) : Text :=
  match t with
  | [] => []
  | c :: u =>
    match if c == '$' then reference? u else none with
    | none => c :: expand vars u
    | some (name, default, rest) =>
      let value := ((vars.lookup name).getD (some default)).getD []
      if _h : rest.length ≤ u.length then value ++ expand vars rest else value
termination_by t.length
decreasing_by all_goals simp only [List.length_cons]; omega

/-- The variables with the references of one more resolved. -/
def bind (environment : Variables) (vars : Variables) (b : Binding) : Variables :=
  Named.put b.1 (b.2.map (expand (vars ++ environment))) vars

/-- The text without a byte order mark in front. -/
def withoutMark (t : Text) : Text :=
  (Text.after? ['\uFEFF'] t).getD t

/-- The variables of a file, whose values may refer to the ones of the environment. -/
def read (environment : Variables) (t : Text) : Variables :=
  (readBindings (Text.unifyNewlines (withoutMark t))).foldl (bind environment) []

end ModuleSurface.Config.VariableFile

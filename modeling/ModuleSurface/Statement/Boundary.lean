import ModuleSurface.Callable.Parameter

/-!
# Where statements end

A semicolon ends a statement, and so does a newline if neither the text in front of it nor the next
line says that the statement goes on.  `isIncomplete` looks at the text in front of the newline,
`continues` at what follows it.
-/

namespace ModuleSurface.Statement

open ModuleSurface.Lexing
open ModuleSurface.Callable

/-! ## The text in front -/

/-- Signs that cannot end a statement. -/
def openSigns : List Text :=
  ["=>", "&&", "||", "??", "=", ",", "+", "-", "*", "/", "%", "&", "|", "?", ":", "<", ".",
   "@"].map String.toList

/-- Words that cannot end a statement. -/
def openWords : List Text :=
  ["export", "declare", "default", "async", "abstract", "extends", "implements", "as", "satisfies",
   "keyof", "typeof", "instanceof", "new", "readonly"].map String.toList

/-- The identifier at the end of a text; nothing if it is a property name behind a dot. -/
def lastWord (code : Text) : Text :=
  let reversed := code.reverse
  if (reversed.dropWhile Text.isIdentChar).head? == some '.' then []
  else (reversed.takeWhile Text.isIdentChar).reverse

/-- Does the statement read so far go on in the next line?  A text of decorators or comments only
does, and so does one that ends with an operator or a word that needs more; a regular expression
literal ends with a slash and needs nothing. -/
def isIncomplete (segment : Text) : Bool :=
  let code := Text.stripRight (stripComments segment)
  if (stripDecorators code).isEmpty then true
  else if ["++".toList, "--".toList].any (·.isSuffixOf code) then false
  else if code.getLast? == some '/' &&
      (Text.stripRight (codeOnly segment)).getLast? != some '/' then false
  else openSigns.any (·.isSuffixOf code) || openWords.contains (lastWord code)

/-! ## The line behind -/

/-- Words that continue the statement of the line before. -/
def joiningWords : List Text :=
  ["as", "satisfies", "extends", "implements", "instanceof", "keyof"].map String.toList

/-- Does the line begin with an operator, a bracket or a word that continues a statement? -/
def beginsContinuation (line : Text) : Bool :=
  match line with
  | [] => false
  | c :: rest =>
    if c == '.' then !"..".toList.isPrefixOf rest
    else if c == '+' then rest.head? != some '+'
    else if c == '-' then rest.head? != some '-'
    else if c == '/' then rest.head? != some '/' && rest.head? != some '*'
    else "?:=|&*%)],\x7b>".toList.contains c ||
      joiningWords.any fun w => Text.startsWithWord w line

/-- Does the first line of the text that is not blank continue a statement in front of it? -/
def continues (rest : Text) : Bool :=
  let line := (Text.stripLeft rest).takeWhile (· != '\n')
  !Text.startsWithAny line ["//".toList, "/*".toList] && beginsContinuation line

/-- Does the statement `segment` end in front of `rest`, the text behind a newline? -/
def endsBefore (segment rest : Text) : Bool :=
  !isIncomplete segment && !continues rest

/-! ## Control statements -/

/-- The keywords of statements that control another one. -/
def controlWords : List Text :=
  ["if", "for", "while", "with", "else", "do"].map String.toList

/-- Is the text in round brackets and nothing else? -/
def isCondition (t : Text) : Bool :=
  t.head? == some '(' &&
    match matching? t 0 with
    | some close => Text.isBlankText (t.drop (close + 1))
    | none => false

/-- Is the statement the header of a control statement without its body?  Then the next statement
is that body. -/
def isControlHeader (raw : Text) : Bool :=
  match controlWords.find? fun w => Text.startsWithWord w raw with
  | none => false
  | some word =>
    let rest := Text.strip (raw.drop word.length)
    if word = "do".toList then rest.isEmpty
    else if word = "else".toList then
      if Text.startsWithName "if".toList rest then isCondition (Text.strip (rest.drop 2))
      else rest.isEmpty
    else isCondition rest

end ModuleSurface.Statement

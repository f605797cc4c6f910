import ModuleSurface.Text.Basic

/-!
# Lines and quoted names

Cutting a text into lines at every line break of Unicode, and measuring the quoted name that a text
begins with.
-/

namespace ModuleSurface.Text

/-! ## Lines -/

/-- A character that ends a line: line feed, vertical tab, form feed, carriage return, the three
separators of files, groups and records, next line, and the line and paragraph separators. -/
def isLineBreak (c : Char) : Bool :=
  inRanges [(0x0A, 0x0D), (0x1C, 0x1E), (0x85, 0x85), (0x2028, 0x2029)] c.toNat

/-- The lines of a text, from the characters of the line being read (in reverse) on. -/
def linesFrom (current : Text) : Text → List Text
  | [] => if current.isEmpty then [] else [current.reverse]
  | [c] => if isLineBreak c then [current.reverse] else [(c :: current).reverse]
  | c :: d :: t =>
    if c == '\r' && d == '\n' then current.reverse :: linesFrom [] t
    else if isLineBreak c then current.reverse :: linesFrom [] (d :: t)
    else linesFrom (c :: current) (d :: t)

/-- The lines of a text without their line breaks.  A carriage return and the line feed behind it
are one break, and a break at the end begins no further line. -/
def lines (t : Text) : List Text :=
  linesFrom [] t

/-- The text with every line end written as a newline. -/
def unifyNewlines : Text → Text
  | [] => []
  | [c] => if c == '\r' then ['\n'] else [c]
  | c :: d :: t =>
    if c == '\r' then
      if d == '\n' then '\n' :: unifyNewlines t else '\n' :: unifyNewlines (d :: t)
    else c :: unifyNewlines (d :: t)

/-! ## Quoted names -/

/-- The number of characters up to and with the closing quote.  A backslash escapes the character
behind it, unless no quote would be left on the line then. -/
def closingQuote? (quote : Char) : Text → Option Nat
  | [] => none
  | [c] => if c == quote then some 1 else none
  | c :: d :: t =>
    if c == quote then some 1
    else if c == '\n' then none
    else if c == '\\' && d != '\n' && (t.takeWhile (· != '\n')).contains quote then
      (closingQuote? quote t).map (· + 2)
    else (closingQuote? quote (d :: t)).map (· + 1)

/-- The number of characters of the quoted name that a text begins with. -/
def quotedWidth? : Text → Option Nat
  | [] => none
  | c :: t => if c == '\'' || c == '"' then (closingQuote? c t).map (· + 1) else none

example : quotedWidth? "'a\\'b' c".toList = some 6 := by decide
example : quotedWidth? "'a\\'".toList = some 4 := by decide

end ModuleSurface.Text

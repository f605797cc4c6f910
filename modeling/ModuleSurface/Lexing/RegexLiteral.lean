import ModuleSurface.Text.Identifier

/-!
# Regular expression literals

A slash in code either divides or begins a regular expression literal.  Which of the two it is
depends on what stands before it (`beginsAfter`), and it counts as a literal only if it is closed on
its own line (`bodyWidth?`).
-/

namespace ModuleSurface.Lexing.RegexLiteral

/-- The signs after which a slash begins a literal. -/
def signs : Text :=
  "=([!&|?:,;\x7b\x7d^~+-*%<>".toList

/-- The words after which a slash begins a literal. -/
def keywords : List Text :=
  ["return", "typeof", "void", "delete", "throw", "new", "in", "of", "case", "instanceof",
   "yield", "await"].map String.toList

/-- Is the character a space, a tab or part of a line end? -/
def isGap (c : Char) : Bool :=
  c == ' ' || c == '\t' || c == '\r' || c == '\n'

/-- Does a slash begin a literal behind the text `past`, given in reverse?  The nearest character
that is no gap decides: there is none, it is one of the signs, or it ends one of the keywords. -/
def beginsAfter (past : Text) : Bool :=
  match past.dropWhile isGap with
  | [] => true
  | c :: before =>
    signs.contains c ||
      keywords.contains ((c :: before).takeWhile Text.isIdentChar).reverse

/-- The number of characters of a literal behind its opening slash: the body, the closing slash
and the flags.  A slash in a class does not close the literal, and there is none if the line ends
first.  `inClass` says whether the text begins inside a class. -/
def bodyWidth? (inClass : Bool) : Text → Option Nat
  | [] => none
  | [c] => if c == '/' && !inClass then some 1 else none
  | c :: d :: t =>
    if c == '\\' then (bodyWidth? inClass t).map (· + 2)
    else if c == '\r' || c == '\n' then none
    else if inClass then (bodyWidth? (c != ']') (d :: t)).map (· + 1)
    else if c == '[' then (bodyWidth? true (d :: t)).map (· + 1)
    else if c == '/' then some (1 + ((d :: t).takeWhile Text.isIdentChar).length)
    else (bodyWidth? false (d :: t)).map (· + 1)

/-- The number of characters of the literal that begins with `c`, between `past` in reverse and
`rest`, if one begins there. -/
def width? (past : Text) (c : Char) (rest : Text) : Option Nat :=
  if c == '/' && beginsAfter past then (bodyWidth? false rest).map (· + 1) else none

/-- A literal is not empty. -/
theorem one_le_of_width? {past rest : Text} {c : Char} {k : Nat}
    (h : width? past c rest = some k) : 1 ≤ k := by
  simp only [width?] at h
  split at h
  · obtain ⟨n, _, rfl⟩ := Option.map_eq_some_iff.1 h
    omega
  · cases h

end ModuleSurface.Lexing.RegexLiteral

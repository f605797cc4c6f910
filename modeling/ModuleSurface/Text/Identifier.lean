import ModuleSurface.Text.Basic

/-!
# Identifiers and words

What counts as an identifier, the identifier tokens of a text, and searching for a word that
stands on its own.
-/

namespace ModuleSurface.Text

/-! ## Recognising -/

/-- Every character satisfies `p`, but a single newline may stand at the very end. -/
def allUpToNewline (p : Char → Bool) (t : Text) : Bool :=
  t.all p || (t.getLast? == some '\n' && t.dropLast.all p)

/-- An identifier: a start character and identifier characters.  One newline may follow. -/
def isIdentifier : Text → Bool
  | [] => false
  | c :: t => isIdentStart c && allUpToNewline isIdentChar t

/-- Is the whole text made of the characters of names?  A text of letters and numbers is, and so
is every piece of the two signs that may join them: nothing, `_`, `$` and `_$`. -/
def isIdentText (t : Text) : Bool :=
  (!t.isEmpty && t.all isAlphanumeric) ||
    ["".toList, "_".toList, "$".toList, "_$".toList].contains t

/-- Does the text begin with `word`, followed by no further word character? -/
def startsWithWord (word t : Text) : Bool :=
  word.isPrefixOf t && !(t.drop word.length).head?.any isWordChar

/-- Does the text begin with `word`, followed by no further identifier character? -/
def startsWithName (word t : Text) : Bool :=
  word.isPrefixOf t && !(t.drop word.length).head?.any isIdentChar

/-! ## Tokens -/

/-- The identifier tokens of a text from left to right: each begins at the first start character
that is not part of the token before it. -/
def identifierTokens : Text → List Text
  | [] => []
  | c :: t =>
    if isIdentStart c then
      (c :: t.takeWhile isIdentChar) :: identifierTokens (t.dropWhile isIdentChar)
    else identifierTokens t
termination_by t => t.length
decreasing_by
  · have := (List.dropWhile_suffix isIdentChar (l := t)).length_le
    simp only [List.length_cons]
    omega
  · simp only [List.length_cons]
    omega

/-! ## Words that stand on their own -/

/-- Does `t` begin with `word`, with no identifier character before or behind it? -/
def standsAlone (word : Text) (before : Option Char) (t : Text) : Bool :=
  !before.any isIdentChar && word.isPrefixOf t && !(t.drop word.length).head?.any isIdentChar

/-- Does `word` stand on its own in `t`, where `before` is the character in front of `t`? -/
def containsWordFrom (word : Text) : Option Char → Text → Bool
  | before, [] => standsAlone word before []
  | before, c :: t => standsAlone word before (c :: t) || containsWordFrom word (some c) t

/-- Does `word` stand somewhere in `t` without an identifier character next to it? -/
def containsWord (t word : Text) : Bool :=
  containsWordFrom word none t

/-! ## Order -/

/-- The order of texts: character by character, a shorter text before its extensions. -/
def le : Text → Text → Bool
  | [], _ => true
  | _ :: _, [] => false
  | a :: s, b :: t => decide (a < b) || (a == b && le s t)

/-- The texts in increasing order. -/
def sort (ts : List Text) : List Text :=
  ts.mergeSort le

/-- The texts in increasing order, each once. -/
def sortUnique (ts : List Text) : List Text :=
  sort ts.eraseDups

end ModuleSurface.Text

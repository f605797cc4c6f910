import ModuleSurface.Lexing.TopLevel

/-!
# Declared types and assertions

Which declared types say less than the value they stand at, and how an assertion is split from the
value it is about.
-/

namespace ModuleSurface.Narrowing

open ModuleSurface.Lexing

/-! ## Broad types -/

/-- What follows the sign `c` behind white space. -/
def sign? (c : Char) (t : Text) : Option Text :=
  match Text.stripLeft t with
  | d :: rest => if d == c then some rest else none
  | [] => none

/-- What follows the first of the words that stands behind white space. -/
def word? (words : List Text) (t : Text) : Option Text :=
  words.findSome? fun w => Text.after? w (Text.stripLeft t)

/-- What follows a name behind white space. -/
def name? (t : Text) : Option Text :=
  let t := Text.stripLeft t
  if t.head?.any Text.isIdentChar then some (t.dropWhile Text.isIdentChar) else none

/-- Is the text an object type with an index signature of primitive or unknown values, and nothing
else? -/
def isIndexSignature (t : Text) : Bool :=
  let rest := do
    let t ← sign? '{' t
    let t ← sign? '[' t
    let t ← name? t
    let t ← sign? ':' t
    let t ← word? ["string".toList, "number".toList, "symbol".toList] t
    let t ← sign? ']' t
    let t ← sign? ':' t
    let t ← word? ["any".toList, "string".toList, "number".toList, "unknown".toList] t
    sign? '}' ((sign? ';' t).getD t)
  rest == some []

/-- Does the declared type say less than the value itself would? -/
def isBroad (declared : Text) : Bool :=
  let t := Text.collapse declared
  ["any".toList, "object".toList, "unknown".toList, "Object".toList,
      "\x7b\x7d".toList].contains t ||
    (Text.startsWithAny t ["Record<".toList, "Array<".toList] && t.getLast? == some '>') ||
    isIndexSignature t

/-! ## Assertions -/

/-- The words that assert a type of the value in front of them. -/
inductive AssertionWord where
  /-- The type replaces the value's own. -/
  | cast
  /-- The value is checked against the type. -/
  | satisfies
  deriving DecidableEq, Repr

/-- The word as written. -/
def AssertionWord.text : AssertionWord → Text
  | .cast => "as".toList
  | .satisfies => "satisfies".toList

/-- A value and the type that is asserted of it. -/
structure Assertion where
  /-- The value. -/
  value : Text
  /-- The asserting word. -/
  word : AssertionWord
  /-- The type, with its white space collapsed. -/
  target : Text
  deriving DecidableEq, Repr

/-- The last place of an asserting word outside brackets, unless that is the start of the text. -/
def lastAssertion? (expr : Text) (word : AssertionWord) : Option (Nat × AssertionWord) :=
  match findLastOutermost? expr word.text with
  | some (n + 1) => some (n + 1, word)
  | _ => none

/-- The last asserting word outside brackets with its offset. -/
def assertionPlace? (expr : Text) : Option (Nat × AssertionWord) :=
  match lastAssertion? expr .cast, lastAssertion? expr .satisfies with
  | some a, some s => if a.1 < s.1 then some s else some a
  | some a, none => some a
  | none, s => s

/-- The expression split at its last asserting word, if there is text on both sides. -/
def assertion? (expr : Text) : Option Assertion :=
  match assertionPlace? expr with
  | none => none
  | some (i, word) =>
    let value := Text.strip (expr.take i)
    let target := Text.collapse (expr.drop (i + word.text.length))
    if value.isEmpty || target.isEmpty then none
    else some { value := value, word := word, target := target }

theorem length_value_lt {expr : Text} {a : Assertion} (h : assertion? expr = some a) :
    a.value.length < expr.length := by
  simp only [assertion?] at h
  split at h
  · cases h
  · rename_i i word _
    split at h
    · cases h
    · rename_i hne
      cases h
      have h₁ := Text.length_strip_le (expr.take i)
      simp only [Bool.or_eq_true, List.isEmpty_iff, not_or] at hne
      have h₂ : expr.drop (i + word.text.length) ≠ [] := by
        intro h0
        rw [h0] at hne
        exact hne.2 rfl
      have h₃ := List.length_pos_iff.2 h₂
      have h₄ : 0 < word.text.length := by cases word <;> decide
      simp only [List.length_drop, List.length_take] at h₁ h₃ ⊢
      omega

end ModuleSurface.Narrowing

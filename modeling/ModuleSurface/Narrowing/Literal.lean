import ModuleSurface.Lexing.Pass
import ModuleSurface.Text.Identifier

/-!
# Literals

Recognisers for the literals whose own text is their narrowest type: numbers in every base, big
integers, and single string or template literals.  The number forms allow one newline at the end of
the text.
-/

namespace ModuleSurface.Narrowing.Literal

open ModuleSurface.Lexing

/-! ## Numbers -/

/-- The text without one newline at its end. -/
def dropNewline (t : Text) : Text :=
  if t.getLast? == some '\n' then t.dropLast else t

/-- The text without a minus sign in front. -/
def dropMinus : Text → Text
  | '-' :: t => t
  | t => t

/-- Decimal digits with underscores between and behind them. -/
def isDigits : Text → Bool
  | [] => false
  | c :: t => Text.isDecimal c && t.all fun d => Text.isDecimal d || d == '_'

/-- A letter that begins an exponent. -/
def isExponentMark (c : Char) : Bool :=
  c == 'e' || c == 'E'

/-- Digits, or digits with a point before or between them. -/
def isMantissa (t : Text) : Bool :=
  match t.dropWhile (· != '.') with
  | [] => isDigits t
  | _ :: fraction =>
    let whole := t.takeWhile (· != '.')
    (whole.isEmpty || isDigits whole) && isDigits fraction

/-- The digits of an exponent behind its mark, with or without a sign. -/
def isExponent : Text → Bool
  | [] => false
  | c :: t =>
    if c == '+' || c == '-' then !t.isEmpty && t.all Text.isDecimal
    else (c :: t).all Text.isDecimal

/-- A number in base ten with an optional exponent. -/
def isDecimalNumber (t : Text) : Bool :=
  match t.dropWhile (!isExponentMark ·) with
  | [] => isMantissa t
  | _ :: exponent => isMantissa (t.takeWhile (!isExponentMark ·)) && isExponent exponent

/-- A number behind a zero and the letter of its base. -/
def isRadixNumber : Text → Bool
  | '0' :: mark :: digits =>
    let isDigit : Char → Bool := fun c =>
      if mark == 'x' || mark == 'X' then
        c.isDigit || (decide ('a' ≤ c) && decide (c ≤ 'f')) ||
          (decide ('A' ≤ c) && decide (c ≤ 'F'))
      else if mark == 'b' || mark == 'B' then c == '0' || c == '1'
      else if mark == 'o' || mark == 'O' then decide ('0' ≤ c) && decide (c ≤ '7')
      else false
    "xXbBoO".toList.contains mark && !digits.isEmpty && digits.all fun c => isDigit c || c == '_'
  | _ => false

/-- A number, with an optional minus sign. -/
def isNumber (t : Text) : Bool :=
  let digits := dropMinus (dropNewline t)
  isRadixNumber digits || isDecimalNumber digits

/-- An integer of any size: digits and the letter `n`, with an optional minus sign. -/
def isBigInt (t : Text) : Bool :=
  let digits := dropMinus (dropNewline t)
  digits.getLast? == some 'n' && isDigits digits.dropLast

/-! ## Strings -/

/-- Is the text, which begins with a quote, exactly one string or template literal? -/
def isSingle (t : Text) : Bool :=
  match (pass t).moments.find? (·.after.context == .normal) with
  | some m => m.stop == t.length
  | none => false

example : isNumber "1_000.5e-3".toList = true := by decide
example : isNumber "1.".toList = false := by decide
example : isNumber ".5".toList = true := by decide
example : isNumber "0x".toList = false := by decide
example : isBigInt "-12n".toList = true := by decide

end ModuleSurface.Narrowing.Literal

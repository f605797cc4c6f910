import ModuleSurface.Text.Basic
import ModuleSurface.Text.Alphanumeric

/-!
# Whole numbers

Reading whole numbers: an optional sign and digits, among which single underscores may stand to set
off groups.  White space around the number does not matter.  A number may have `digitLimit` digits
at most.

There are two kinds of numerals.  `integer?` takes the digits of any script.  `wholeNumber` takes
ASCII digits only and allows a fraction of zeros and any underscores among leading zeros; it tells a
numeral that is too long from a text that is no numeral.
-/

namespace ModuleSurface.Text

/-- The value of a decimal digit of ASCII. -/
def asciiDigit? (c : Char) : Option Nat :=
  if c.isDigit then some (c.toNat - 48) else none

/-- The value of a decimal digit of any script. -/
def anyDigit? (c : Char) : Option Nat :=
  match asciiDigit? c with
  | some d => some d
  | none =>
    (decimalRanges.find? fun r => decide (r.1 ≤ c.toNat) && decide (c.toNat ≤ r.2)).map fun r =>
      (c.toNat - r.1) % 10

/-- The number with the digits, the most significant first. -/
def ofDigits (digits : List Nat) : Nat :=
  digits.foldl (fun n d => 10 * n + d) 0

/-- The greatest number of digits that a numeral may have. -/
def digitLimit : Nat := 4300

/-! ## Digits of any script -/

/-- The digits of a text in which single underscores may separate them. -/
def groupedDigits? (t : Text) : Option (List Nat) :=
  let groups := t.splitOn '_'
  if groups.any (·.isEmpty) then none else groups.flatten.mapM anyDigit?

/-- The number that a text of digits stands for. -/
def natural? (t : Text) : Option Nat :=
  match groupedDigits? t with
  | some digits => if digits.length ≤ digitLimit then some (ofDigits digits) else none
  | none => none

/-- The whole number that a text stands for, in digits of any script. -/
def integer? (t : Text) : Option Int :=
  match strip t with
  | '-' :: t => (natural? t).map fun n => -Int.ofNat n
  | '+' :: t => (natural? t).map Int.ofNat
  | t => (natural? t).map Int.ofNat

example : integer? " -1_000 ".toList = some (-1000) := by decide

/-! ## ASCII digits -/

/-- White space that may stand around a numeral.  The separators of files, groups, records and units
are not among it. -/
def isNumeralGap (c : Char) : Bool :=
  isBlank c && !(decide (0x1C ≤ c.toNat) && decide (c.toNat ≤ 0x1F))

/-- Why a text is no whole number. -/
inductive NumeralFault where
  /-- It is no numeral. -/
  | unreadable
  /-- It has too many characters. -/
  | tooLong
  deriving DecidableEq, Repr

/-- The number that a text of digits stands for, without a zero in front.  The number of characters
counts with the sign, and the digits that a text begins with may be too many whatever follows
them. -/
def plainNatural (negative : Bool) (t : Text) : Except NumeralFault Int :=
  let digits := t.takeWhile Char.isDigit
  let width := if negative then digits.length + 1 else digits.length
  let n := Int.ofNat (ofDigits (digits.filterMap asciiDigit?))
  if digits.head? == some '0' then if t.length == 1 then .ok 0 else .error .unreadable
  else if digits.isEmpty then .error .unreadable
  else if digitLimit < width then .error .tooLong
  else if digits.length < t.length then .error .unreadable
  else .ok (if negative then -n else n)

/-- The number that a numeral in its plain form stands for: a minus sign or none, and digits. -/
def plainNumeral : Text → Except NumeralFault Int
  | '-' :: t => plainNatural true t
  | t => plainNatural false t

/-- The digits without the zeros in front, among which any underscores may stand, and behind which a
minus sign may.  One zero is kept if nothing but zeros is there, or a point is next. -/
def withoutZeros? (t : Text) : Option Text :=
  if t.head? == some '0' then
    let zeros := t.takeWhile fun c => c == '0' || c == '_'
    match t.drop zeros.length with
    | [] => zeros.getLast?.map ([·])
    | '.' :: rest => zeros.getLast?.map (· :: '.' :: rest)
    | c :: rest => if c.isDigit || c == '-' then some (c :: rest) else none
  else if t.head?.any Char.isDigit then some t
  else none

/-- The text without a fraction of zeros at its end.  A point alone is no fraction. -/
def withoutFraction (t : Text) : Text :=
  match t.dropWhile (· != '.') with
  | _ :: fraction =>
    if !fraction.isEmpty && fraction.all (· == '0') then t.takeWhile (· != '.') else t
  | [] => t

/-- The text without underscores, if single ones stand between other characters; else the text
itself. -/
def withoutUnderscores (t : Text) : Text :=
  if (t.splitOn '_').any (·.isEmpty) then t else t.filter (· != '_')

/-- The numeral without a sign in its plain form. -/
def plainUnsigned? (t : Text) : Option Text :=
  (withoutZeros? t).map fun t => withoutUnderscores (withoutFraction t)

/-- The numeral in its plain form. -/
def plainForm? (t : Text) : Option Text :=
  match dropRightWhile isNumeralGap (t.dropWhile isNumeralGap) with
  | '+' :: t => plainUnsigned? t
  | '-' :: t => (plainUnsigned? t).map ('-' :: ·)
  | t => plainUnsigned? t

/-- The whole number that a text stands for, in ASCII digits: as it is, or in its plain form. -/
def wholeNumber (t : Text) : Except NumeralFault Int :=
  match plainNumeral t, plainForm? t with
  | .error .unreadable, some t => plainNumeral t
  | r, _ => r

example : (wholeNumber "7.50".toList).toOption = none := by decide
example : (wholeNumber "1.".toList).toOption = none := by decide
example : (wholeNumber " +0_07.00 ".toList).toOption = some 7 := by decide
example : (wholeNumber "-1_000".toList).toOption = some (-1000) := by decide
example : (wholeNumber "0-5".toList).toOption = some (-5) := by decide
example : (wholeNumber "-0-5".toList).toOption = none := by decide

end ModuleSurface.Text

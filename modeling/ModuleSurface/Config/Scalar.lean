import ModuleSurface.Config.Value
import ModuleSurface.Text.Integer

/-!
# Quoted texts and numbers

What the configuration formats have in common: texts in quotes with escapes, and numbers with a
fraction and an exponent.  A reader gives what a text begins with together with the rest.
-/

namespace ModuleSurface.Config

/-- Why a text cannot be read. -/
inductive ReadFault where
  /-- It is not written in the format. -/
  | malformed
  /-- A whole number in it has too many digits. -/
  | tooManyDigits
  deriving DecidableEq, Repr

/-- What a reader has read, together with the rest. -/
abbrev Reading (α : Type) := Except ReadFault (α × Text)

/-- What is left of a text behind at least one character. -/
abbrev Rest (t : Text) := { r : Text // r.length < t.length }

/-- What a reader has read of a text, if it has read something. -/
def progress {α : Type} (t : Text) (read : Reading α) : Except ReadFault (α × Rest t) :=
  match read with
  | .error f => .error f
  | .ok (a, r) => if h : r.length < t.length then .ok (a, ⟨r, h⟩) else .error .malformed

/-- What is there must be well-formed. -/
def wellFormed {α : Type} (read : Option α) : Except ReadFault α :=
  (read.map Except.ok).getD (.error .malformed)

/-! ## Quoted texts -/

/-- The characters up to the closing quote, and the rest behind it.  A backslash keeps the character
behind it from closing. -/
def untilQuote? (quote : Char) : Text → Option (Text × Text)
  | [] => none
  | [c] => if c == quote then some ([], []) else none
  | c :: d :: t =>
    if c == quote then some ([], d :: t)
    else if c == '\\' then (untilQuote? quote t).map fun r => (c :: d :: r.1, r.2)
    else (untilQuote? quote (d :: t)).map fun r => (c :: r.1, r.2)

/-- The value of a hexadecimal digit. -/
def hexDigit? (c : Char) : Option Nat :=
  if c.isDigit then some (c.toNat - 48)
  else if 'a' ≤ c ∧ c ≤ 'f' then some (c.toNat - 87)
  else if 'A' ≤ c ∧ c ≤ 'F' then some (c.toNat - 55)
  else none

/-- The number that hexadecimal digits stand for. -/
def hexNumber? (t : Text) : Option Nat :=
  (t.mapM hexDigit?).map fun ds => ds.foldl (fun n d => 16 * n + d) 0

/-- The escapes of a format. -/
structure Escapes where
  /-- The characters behind a backslash that stand for another one. -/
  simple : List (Char × Char)
  /-- The characters behind a backslash that begin a code, with its number of digits. -/
  coded : List (Char × Nat)
  /-- May a character stand for itself? -/
  plain : Char → Bool

/-- The codes that a quoted text stands for. -/
def Escapes.codes? (e : Escapes) (t : Text) : Option (List Nat) :=
  match t with
  | [] => some []
  | [c] => if c != '\\' && e.plain c then some [c.toNat] else none
  | c :: d :: t =>
    if c != '\\' then
      if e.plain c then (e.codes? (d :: t)).map (c.toNat :: ·) else none
    else
      match e.simple.lookup d, e.coded.lookup d with
      | some d, _ => (e.codes? t).map (d.toNat :: ·)
      | none, some n =>
        if t.length < n then none
        else (hexNumber? (t.take n)).bind fun code => (e.codes? (t.drop n)).map (code :: ·)
      | none, none => none
termination_by t.length
decreasing_by all_goals simp only [List.length_cons, List.length_drop]; omega

/-- The text of codes in which two halves of a surrogate pair are one character.  A half on its own
becomes the replacement character. -/
def ofUnits : List Nat → Text
  | [] => []
  | [a] => [if a.isValidChar then Char.ofNat a else '\uFFFD']
  | a :: b :: codes =>
    if 0xD800 ≤ a ∧ a < 0xDC00 ∧ 0xDC00 ≤ b ∧ b < 0xE000 then
      Char.ofNat (0x10000 + 0x400 * (a - 0xD800) + (b - 0xDC00)) :: ofUnits codes
    else (if a.isValidChar then Char.ofNat a else '\uFFFD') :: ofUnits (b :: codes)

/-- The text of codes, if each is that of a character. -/
def ofCodes? (codes : List Nat) : Option Text :=
  codes.mapM fun a => if a.isValidChar then some (Char.ofNat a) else none

/-! ## Numbers -/

/-- The digits that a text begins with, and the rest.  If `grouped`, single underscores may stand
between digits. -/
def digitRun (grouped : Bool) : Text → List Nat × Text
  | [] => ([], [])
  | [c] => if c.isDigit then ([c.toNat - 48], []) else ([], [c])
  | c :: d :: t =>
    if c.isDigit then
      let (ds, r) := digitRun grouped (d :: t)
      ((c.toNat - 48) :: ds, r)
    else if grouped && c == '_' && d.isDigit then
      let (ds, r) := digitRun grouped t
      ((d.toNat - 48) :: ds, r)
    else ([], c :: d :: t)

/-- The digits of a number in front of its fraction, and the rest.  Nothing follows a zero at the
start. -/
def integerDigits? (grouped : Bool) : Text → Option (List Nat × Text)
  | [] => none
  | c :: t =>
    if c == '0' then some ([0], t)
    else if c.isDigit then some (digitRun grouped (c :: t))
    else none

/-- The digits of a fraction, if a point and a digit are next. -/
def fractionDigits (grouped : Bool) : Text → List Nat × Text
  | '.' :: c :: t => if c.isDigit then digitRun grouped (c :: t) else ([], '.' :: c :: t)
  | t => ([], t)

/-- The exponent of a number, if there is one. -/
def exponent (grouped : Bool) (t : Text) : Option Int × Text :=
  match t with
  | c :: u =>
    let negative := u.head? == some '-'
    let v := if negative || u.head? == some '+' then u.drop 1 else u
    if (c == 'e' || c == 'E') && v.head?.any Char.isDigit then
      let (ds, r) := digitRun grouped v
      let n := Int.ofNat (Text.ofDigits ds)
      (some (if negative then -n else n), r)
    else (none, t)
  | [] => (none, [])

/-- The whole number with the digits, made negative if `negative`. -/
def wholeValue (negative : Bool) (digits : List Nat) : Except ReadFault Value :=
  let n := Int.ofNat (Text.ofDigits digits)
  if Text.digitLimit < digits.length then .error .tooManyDigits
  else .ok (.int (if negative then -n else n))

/-- The number without a sign that a text begins with, made negative if `negative`.  Without a
fraction and an exponent it is a whole number. -/
def unsigned (grouped negative : Bool) (t : Text) : Reading Value :=
  match integerDigits? grouped t with
  | none => .error .malformed
  | some (whole, t) =>
    let (fraction, t) := fractionDigits grouped t
    let (e, t) := exponent grouped t
    if fraction.isEmpty && e.isNone then (wholeValue negative whole).map fun v => (v, t)
    else
      let digits := Text.ofDigits (whole ++ fraction)
      .ok (.float (Double.ofDecimal negative digits (e.getD 0 - fraction.length)), t)

end ModuleSurface.Config

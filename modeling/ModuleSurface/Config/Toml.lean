import ModuleSurface.Config.Scalar

/-!
# Settings files

A settings file has a line `name = value` for each setting.  Values are texts in single quotes,
which are taken as they are, or in double quotes, which may have escapes; whole and broken numbers;
truth values; and lists, which may go over several lines.  A comment goes from a number sign to the
end of its line.  A name may be given once only.
-/

namespace ModuleSurface.Config.Toml

/-- White space within a line. -/
def isGap (c : Char) : Bool :=
  c == ' ' || c == '\t'

/-- The text without the white space in front. -/
def skip (t : Text) : Text :=
  t.dropWhile isGap

/-- A control character other than the tab, which may stand neither in texts nor in comments. -/
def isControl (c : Char) : Bool :=
  c != '\t' && (decide (c.toNat < 0x20) || c.toNat == 0x7F)

/-- The text without the white space, line ends and comments in front.  `comment` says whether the
text begins within a comment. -/
def skipLines? : Bool → Text → Option Text
  | _, [] => some []
  | true, c :: t =>
    if c == '\n' then skipLines? false t else if isControl c then none else skipLines? true t
  | false, c :: t =>
    if isGap c || c == '\n' then skipLines? false t
    else if c == '#' then skipLines? true t
    else some (c :: t)

theorem length_skipLines?_le {comment : Bool} {t r : Text} (h : skipLines? comment t = some r) :
    r.length ≤ t.length := by
  fun_induction skipLines? comment t <;> grind

/-- The text behind the end of the line, if the line has nothing more but a comment. -/
def endLine? (t : Text) : Option Text :=
  match skip t with
  | [] => some []
  | '\n' :: t => some t
  | '#' :: t => skipLines? true t
  | _ => none

/-! ## Values -/

/-- The escapes of texts in double quotes. -/
def escapes : Escapes where
  simple := [('"', '"'), ('\\', '\\'), ('b', '\x08'), ('f', '\x0C'), ('n', '\n'), ('r', '\r'),
    ('t', '\t')]
  coded := [('u', 4), ('U', 8)]
  plain c := !isControl c

/-- The text behind an opening double quote. -/
def readEscaped (t : Text) : Reading Text :=
  wellFormed <| (untilQuote? '"' t).bind fun (raw, rest) => (escapes.codes? raw).bind fun codes =>
    (ofCodes? codes).map fun s => (s, rest)

/-- The text behind an opening single quote. -/
def readVerbatim (t : Text) : Reading Text :=
  let s := t.takeWhile (· != '\'')
  match t.dropWhile (· != '\'') with
  | _ :: rest => if s.any isControl then .error .malformed else .ok (s, rest)
  | [] => .error .malformed

/-- The value of a digit in a base up to sixteen. -/
def digitIn? (base : Nat) (c : Char) : Option Nat :=
  (hexDigit? c).filter (· < base)

/-- The number behind a mark of its base. -/
def readBased (base : Nat) (t : Text) : Reading Value :=
  let isPart := fun c => c == '_' || (digitIn? base c).isSome
  let groups := (t.takeWhile isPart).splitOn '_'
  if groups.any (·.isEmpty) then .error .malformed
  else
    wellFormed <| (groups.flatten.mapM (digitIn? base)).map fun ds =>
      (.int (Int.ofNat (ds.foldl (fun n d => base * n + d) 0)), t.dropWhile isPart)

/-- The words for numbers that are not finite. -/
def notFiniteWords : List Text :=
  ["inf", "nan", "-inf", "+inf", "-nan", "+nan"].map String.toList

/-- The number that a text begins with. -/
def readNumber (t : Text) : Reading Value :=
  match t with
  | '0' :: 'x' :: t => readBased 16 t
  | '0' :: 'o' :: t => readBased 8 t
  | '0' :: 'b' :: t => readBased 2 t
  | t =>
    match notFiniteWords.findSome? (Text.after? · t), t with
    | some r, _ => .ok (.float .notFinite, r)
    | none, '-' :: t => unsigned true true t
    | none, '+' :: t => unsigned true false t
    | none, t => unsigned true false t

/-- The value that is no list. -/
def readScalar (t : Text) : Reading Value :=
  match t with
  | '"' :: t => (readEscaped t).map fun r => (.text r.1, r.2)
  | '\'' :: t => (readVerbatim t).map fun r => (.text r.1, r.2)
  | t =>
    match Text.after? "true".toList t, Text.after? "false".toList t with
    | some r, _ => .ok (.bool true, r)
    | _, some r => .ok (.bool false, r)
    | none, none => readNumber t

mutual

/-- The value that a text begins with. -/
def readValue (t : Text) : Except ReadFault (Value × Rest t) :=
  match t with
  | [] => .error .malformed
  | c :: u =>
    if c == '[' then
      match readItems u with
      | .ok (vs, r) => .ok (.list vs, ⟨r.1, by have := r.2; simp only [List.length_cons]; omega⟩)
      | .error f => .error f
    else progress (c :: u) (readScalar (c :: u))
termination_by 2 * t.length

/-- The values of a list up to and with its closing bracket.  A comma may stand behind the last. -/
def readItems (t : Text) : Except ReadFault (List Value × Rest t) :=
  match h : skipLines? false t with
  | none => .error .malformed
  | some [] => .error .malformed
  | some (c :: u) =>
    have hu := length_skipLines?_le h
    if c == ']' then .ok ([], ⟨u, by simp only [List.length_cons] at hu; omega⟩)
    else
      match readValue (c :: u) with
      | .error f => .error f
      | .ok (v, ⟨r, hr⟩) =>
        match h' : skipLines? false r with
        | some (']' :: s) =>
          .ok ([v], ⟨s, by
            have := length_skipLines?_le h'
            simp only [List.length_cons] at this hr hu
            omega⟩)
        | some (',' :: s) =>
          have hs := length_skipLines?_le h'
          match readItems s with
          | .ok (vs, q) =>
            .ok (v :: vs, ⟨q.1, by
              have := q.2
              simp only [List.length_cons] at hs hr hu
              omega⟩)
          | .error f => .error f
        | _ => .error .malformed
termination_by 2 * t.length + 1
decreasing_by
  · simp only [List.length_cons] at *; omega
  · simp only [List.length_cons] at *; omega

end

/-! ## Files -/

/-- A character of a name without quotes. -/
def isNameChar (c : Char) : Bool :=
  (c.toNat < 0x80 && c.isAlphanum) || c == '_' || c == '-'

/-- The name that a text begins with. -/
def readName (t : Text) : Reading Text :=
  match t with
  | '"' :: t => readEscaped t
  | '\'' :: t => readVerbatim t
  | t =>
    let name := t.takeWhile isNameChar
    if name.isEmpty then .error .malformed else .ok (name, t.dropWhile isNameChar)

/-- The value behind the name of a setting, and the text behind the line. -/
def readAssigned (t : Text) : Reading Value :=
  match skip t with
  | '=' :: t =>
    match readValue (skip t) with
    | .ok (v, r) => wellFormed ((endLine? r.1).map fun t => (v, t))
    | .error f => .error f
  | _ => .error .malformed

/-- The setting on the line that a text begins with, and the text behind the line. -/
def readSetting (t : Text) : Reading (Text × Value) :=
  match readName t with
  | .ok (name, t) => (readAssigned t).map fun r => ((name, r.1), r.2)
  | .error f => .error f

/-- The settings of the lines of a text in addition to the ones before. -/
def readSettings (before : Fields) (t : Text) : Except ReadFault Fields :=
  match _h : skipLines? false t with
  | none => .error .malformed
  | some [] => .ok before
  | some (c :: u) =>
    match progress (c :: u) (readSetting (c :: u)) with
    | .error f => .error f
    | .ok ((name, v), r) =>
      if Named.has before name then .error .malformed
      else readSettings (before ++ [(name, v)]) r.1
termination_by t.length
decreasing_by
  have := length_skipLines?_le _h
  have := r.2
  omega

/-- The text with a newline for a carriage return and a newline. -/
def dropReturns : Text → Text
  | '\r' :: '\n' :: t => '\n' :: dropReturns t
  | c :: t => c :: dropReturns t
  | [] => []

/-- The settings of a file. -/
def read (t : Text) : Except ReadFault Fields :=
  readSettings [] (dropReturns t)

end ModuleSurface.Config.Toml

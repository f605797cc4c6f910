import ModuleSurface.Config.Scalar

/-!
# Values in JSON

Reading a value in JSON.  Beside the values of the standard, the words for the numbers that are not
finite are understood.  If a table has a name twice, the last value counts.
-/

namespace ModuleSurface.Config.Json

/-- White space between tokens. -/
def isGap (c : Char) : Bool :=
  c == ' ' || c == '\t' || c == '\n' || c == '\r'

/-- The text without the white space in front. -/
def skip (t : Text) : Text :=
  t.dropWhile isGap

theorem length_skip_le (t : Text) : (skip t).length ≤ t.length :=
  (List.dropWhile_suffix isGap).length_le

/-- The escapes of texts. -/
def escapes : Escapes where
  simple := [('"', '"'), ('\\', '\\'), ('/', '/'), ('b', '\x08'), ('f', '\x0C'), ('n', '\n'),
    ('r', '\r'), ('t', '\t')]
  coded := [('u', 4)]
  plain c := decide (0x20 ≤ c.toNat)

/-- The words that are values. -/
def words : List (Text × Value) :=
  [("null", .null), ("true", .bool true), ("false", .bool false), ("NaN", .float .notFinite),
    ("Infinity", .float .notFinite), ("-Infinity", .float .notFinite)].map fun w =>
      (w.1.toList, w.2)

/-- The text behind an opening quote. -/
def readText (t : Text) : Reading Text :=
  wellFormed <| (untilQuote? '"' t).bind fun (raw, rest) => (escapes.codes? raw).map fun codes =>
    (ofUnits codes, rest)

/-- The number that a text begins with. -/
def readNumber (t : Text) : Reading Value :=
  match t with
  | '-' :: t => unsigned false true t
  | t => unsigned false false t

/-- The value that is neither a list nor a table. -/
def readScalar (t : Text) : Reading Value :=
  match t with
  | '"' :: t => (readText t).map fun r => (.text r.1, r.2)
  | t =>
    match words.findSome? fun w => (Text.after? w.1 t).map fun r => (w.2, r) with
    | some r => .ok r
    | none => readNumber t

mutual

/-- The value that a text begins with. -/
def readValue (t : Text) : Except ReadFault (Value × Rest t) :=
  match t with
  | [] => .error .malformed
  | c :: u =>
    have hu := length_skip_le u
    if c == '[' then
      match _h : skip u with
      | ']' :: r => .ok (.list [], ⟨r, by simp_all; omega⟩)
      | v =>
        match readItems v with
        | .ok (vs, r) => .ok (.list vs, ⟨r.1, by have := r.2; simp_all; omega⟩)
        | .error f => .error f
    else if c == '\x7b' then
      match _h : skip u with
      | '\x7d' :: r => .ok (.table [], ⟨r, by simp_all; omega⟩)
      | v =>
        match readMembers v with
        | .ok (fields, r) =>
          .ok (.table (fields.foldl (fun es e => Named.put e.1 e.2 es) []),
            ⟨r.1, by have := r.2; simp_all; omega⟩)
        | .error f => .error f
    else progress (c :: u) (readScalar (c :: u))
termination_by (t.length, 0)
decreasing_by
  all_goals (simp_all only [List.length_cons]; exact Prod.Lex.left _ _ (by omega))

/-- The values of a list up to and with its closing bracket. -/
def readItems (t : Text) : Except ReadFault (List Value × Rest t) :=
  match readValue t with
  | .error f => .error f
  | .ok (v, ⟨r, hr⟩) =>
    have hs := length_skip_le r
    match _h : skip r with
    | ']' :: u => .ok ([v], ⟨u, by simp_all; omega⟩)
    | ',' :: u =>
      have hu := length_skip_le u
      match readItems (skip u) with
      | .ok (vs, s) => .ok (v :: vs, ⟨s.1, by have := s.2; simp_all; omega⟩)
      | .error f => .error f
    | _ => .error .malformed
termination_by (t.length, 1)
decreasing_by
  · exact Prod.Lex.right _ (by omega)
  · exact Prod.Lex.left _ _ (by simp_all; omega)

/-- The fields of a table up to and with its closing brace. -/
def readMembers (t : Text) : Except ReadFault (List (Text × Value) × Rest t) :=
  match t with
  | '"' :: q =>
    match progress q (readText q) with
    | .error f => .error f
    | .ok (name, ⟨a, ha⟩) =>
      have h1 := length_skip_le a
      match _h1 : skip a with
      | ':' :: b =>
        have h2 := length_skip_le b
        match readValue (skip b) with
        | .error f => .error f
        | .ok (v, ⟨r, hr⟩) =>
          have h3 := length_skip_le r
          match _h3 : skip r with
          | '\x7d' :: u => .ok ([(name, v)], ⟨u, by simp_all; omega⟩)
          | ',' :: u =>
            have h4 := length_skip_le u
            match readMembers (skip u) with
            | .ok (fields, s) =>
              .ok ((name, v) :: fields, ⟨s.1, by have := s.2; simp_all; omega⟩)
            | .error f => .error f
          | _ => .error .malformed
      | _ => .error .malformed
  | _ => .error .malformed
termination_by (t.length, 1)
decreasing_by
  · exact Prod.Lex.left _ _ (by simp_all; omega)
  · exact Prod.Lex.left _ _ (by simp_all; omega)

end

/-- The value that a whole text is. -/
def read (t : Text) : Except ReadFault Value :=
  match readValue (skip t) with
  | .ok (v, r) => if (skip r.1).isEmpty then .ok v else .error .malformed
  | .error f => .error f

end ModuleSurface.Config.Json

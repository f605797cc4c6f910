import ModuleSurface.Lexing.Pass

/-!
# Walking over code

`visits` lists the characters of a text that are code: everything outside strings, the text of
template literals, comments and regular expression literals, without the delimiters of those.  Each
visit carries the state in front of its character.  A walk is lenient: it ends where a string is
not closed, and what is open at the end of the text does not matter.
-/

namespace ModuleSurface.Lexing

/-- A character of code, with what is before and behind it. -/
structure Visit where
  /-- The offset of the character. -/
  index : Nat
  /-- The text in front of it, in reverse. -/
  past : Text
  /-- The character. -/
  char : Char
  /-- The text behind it. -/
  rest : Text
  /-- The state in front of the character. -/
  state : State
  deriving Repr

/-- Is `c`, in front of `rest`, code that is neither the first character of a comment nor a
delimiter of a string, a template literal or its substitution? -/
def State.readsCode (s : State) (c : Char) (rest : Text) : Bool :=
  s.inCode && !(c == '/' && (rest.head? == some '/' || rest.head? == some '*')) &&
    !(Context.ofQuote? c).isSome && !s.closesExpr c

/-- The characters of code in `rest`, which begins at `position` behind `past` in reverse. -/
def visitsFrom (s : State) (past rest : Text) (position : Nat) : List Visit :=
  match rest with
  | [] => []
  | c :: r =>
    match _hw : if s.readsCode c r then RegexLiteral.width? past c r else none with
    | some k => visitsFrom s (advancePast past (c :: r) k) ((c :: r).drop k) (position + k)
    | none =>
      let here : List Visit :=
        if s.readsCode c r then
          [{ index := position, past := past, char := c, rest := r, state := s }]
        else []
      match _h : s.step past c r position with
      | .error _ => here
      | .ok (k, s') =>
        here ++ visitsFrom s' (advancePast past (c :: r) k) ((c :: r).drop k) (position + k)
termination_by s.weight rest.length
decreasing_by
  · split at _hw
    · have hk := RegexLiteral.one_le_of_width? _hw
      have := State.weight_sub_lt s hk (n := r.length + 1) (by omega)
      simp only [List.length_drop, List.length_cons]
      omega
    · cases _hw
  · exact State.weight_step_lt _h

/-- The characters of code in a text, from left to right. -/
def visits (text : Text) : List Visit :=
  visitsFrom {} [] text 0

/-! ## Code and nothing else -/

/-- The text at `position` with everything but the visited characters blanked out.  Newlines
stay. -/
def blankedFrom (position : Nat) (visited : List Visit) : Text → Text
  | [] => []
  | c :: t =>
    let blank := if c == '\n' then c else ' '
    match visited with
    | v :: others =>
      if v.index == position then v.char :: blankedFrom (position + 1) others t
      else blank :: blankedFrom (position + 1) visited t
    | [] => blank :: blankedFrom (position + 1) [] t

/-- The text with comments, strings and the text of template literals blanked out.  Code stays in
its place. -/
def codeOnly (text : Text) : Text :=
  blankedFrom 0 (visits text) text

/-- The identifier tokens in the code of a text, from left to right. -/
def identifiers (text : Text) : List Text :=
  Text.identifierTokens (codeOnly text)

theorem length_blankedFrom (position : Nat) (visited : List Visit) (t : Text) :
    (blankedFrom position visited t).length = t.length := by
  induction t generalizing position visited with
  | nil => rfl
  | cons c t ih =>
    cases visited with
    | nil => simp [blankedFrom, ih]
    | cons v others =>
      simp only [blankedFrom]
      split <;> simp [ih]

end ModuleSurface.Lexing

import ModuleSurface.Located

/-!
# The lexical state

A left-to-right pass over a source keeps track of the construct it is in (`Context`), of the
constructs around it, and of the brackets that are open.  The three kinds of brackets are counted
independently and no count drops below zero: a closer without an opener of its kind is counted in
`clamped` and otherwise ignored, and mixed-up closers close the innermost bracket of their own kind.

`Reason` lists everything that can be wrong with a source, `Fault` puts a reason at an offset.
-/

namespace ModuleSurface.Lexing

/-! ## Brackets -/

/-- The kinds of brackets that nest. -/
inductive Bracket where
  /-- Curly brackets. -/
  | brace
  /-- Square brackets. -/
  | square
  /-- Round brackets. -/
  | round
  deriving DecidableEq, Repr

namespace Bracket

/-- The opening character. -/
def opener : Bracket → Char
  | brace => '{'
  | square => '['
  | round => '('

/-- The closing character. -/
def closer : Bracket → Char
  | brace => '}'
  | square => ']'
  | round => ')'

/-- The bracket that a character opens. -/
def ofOpener? (c : Char) : Option Bracket :=
  if c = '{' then some brace else if c = '[' then some square
  else if c = '(' then some round else none

/-- The bracket that a character closes. -/
def ofCloser? (c : Char) : Option Bracket :=
  if c = '}' then some brace else if c = ']' then some square
  else if c = ')' then some round else none

theorem ofOpener?_opener (b : Bracket) : ofOpener? b.opener = some b := by
  cases b <;> rfl

theorem ofCloser?_closer (b : Bracket) : ofCloser? b.closer = some b := by
  cases b <;> rfl

end Bracket

/-! ## Contexts -/

/-- The construct that a pass is inside of. -/
inductive Context where
  /-- Code outside every template literal. -/
  | normal
  /-- A comment that ends with its line. -/
  | lineComment
  /-- A comment between its two delimiters. -/
  | blockComment
  /-- A string in single quotes. -/
  | singleQuote
  /-- A string in double quotes. -/
  | doubleQuote
  /-- The text of a template literal. -/
  | template
  /-- Code in a substitution of a template literal. -/
  | templateExpr
  deriving DecidableEq, Repr

namespace Context

/-- Is the text in this context code? -/
def inCode : Context → Bool
  | normal | templateExpr => true
  | _ => false

/-- Is the text in this context a comment? -/
def isComment : Context → Bool
  | lineComment | blockComment => true
  | _ => false

/-- The literal that a quote character begins. -/
def ofQuote? (c : Char) : Option Context :=
  if c = '\'' then some singleQuote else if c = '"' then some doubleQuote
  else if c = '\x60' then some template else none

end Context

/-! ## What can be wrong -/

/-- What can be wrong with a source. -/
inductive Reason where
  /-- A block comment runs to the end of the text. -/
  | unterminatedComment
  /-- A string runs to the end of its line or of the text. -/
  | unterminatedString
  /-- A template literal runs to the end of the text. -/
  | unterminatedTemplate
  /-- A bracket is still open at the end of the text. -/
  | unclosed (bracket : Bracket)
  deriving DecidableEq, Repr

namespace Reason

/-- The wording of a reason. -/
def message : Reason → Text
  | unterminatedComment => "unterminated block comment".toList
  | unterminatedString => "unterminated string literal".toList
  | unterminatedTemplate => "unterminated template literal".toList
  | unclosed b => "unclosed '".toList ++ [b.opener] ++ "' at end of input".toList

end Reason

/-- A reason at an offset of the text that was read. -/
structure Fault where
  /-- What is wrong. -/
  reason : Reason
  /-- The offset of the delimiter that began the construct. -/
  position : Nat
  deriving DecidableEq, Repr

/-- A fault with its line and column. -/
abbrev ScanError := Located Reason

/-- The fault as a place in the text it was found in. -/
def Fault.locate (f : Fault) (text : Text) : ScanError :=
  Located.locate text f.position f.reason

/-! ## The state -/

/-- The lexical state of a pass, between two of its steps. -/
structure State where
  /-- The construct the pass is in. -/
  context : Context := .normal
  /-- The offset at which that construct began. -/
  contextStart : Nat := 0
  /-- Open curly brackets. -/
  braces : Nat := 0
  /-- Open square brackets. -/
  squares : Nat := 0
  /-- Open round brackets. -/
  rounds : Nat := 0
  /-- Closing brackets that were ignored because none of their kind was open. -/
  clamped : Nat := 0
  /-- The constructs around the current one with their offsets, innermost first. -/
  enclosing : List (Context × Nat) := []
  /-- The curly brackets open at the start of each substitution, innermost first. -/
  exprDepths : List Nat := []
  /-- The open brackets with their offsets, the last opened first. -/
  opened : List (Bracket × Nat) := []
  deriving DecidableEq, Repr

namespace State

/-- The number of open brackets of any kind. -/
def depth (s : State) : Nat :=
  s.braces + s.squares + s.rounds

/-- The number of open brackets of one kind. -/
def depthOf (s : State) : Bracket → Nat
  | .brace => s.braces
  | .square => s.squares
  | .round => s.rounds

/-- Is the pass reading code? -/
def inCode (s : State) : Bool :=
  s.context.inCode

/-- Is the pass in code outside every bracket and template literal? -/
def atTopLevel (s : State) : Bool :=
  s.context == .normal && s.depth == 0

/-- Go into a construct that begins at `start`. -/
def enter (s : State) (context : Context) (start : Nat) : State :=
  { s with
    context := context
    contextStart := start
    enclosing := (s.context, s.contextStart) :: s.enclosing }

/-- Go back to the construct around the current one. -/
def leave (s : State) : State :=
  match s.enclosing with
  | (context, start) :: outer =>
    { s with context := context, contextStart := start, enclosing := outer }
  | [] => { s with context := .normal, contextStart := 0 }

/-- One bracket more of a kind. -/
def openBracket (s : State) (b : Bracket) (position : Nat) : State :=
  let s := { s with opened := (b, position) :: s.opened }
  match b with
  | .brace => { s with braces := s.braces + 1 }
  | .square => { s with squares := s.squares + 1 }
  | .round => { s with rounds := s.rounds + 1 }

/-- One bracket less of a kind.  The innermost one of that kind closes; if none is open, the
closer is only counted. -/
def closeBracket (s : State) (b : Bracket) : State :=
  if s.depthOf b = 0 then { s with clamped := s.clamped + 1 }
  else
    let s := { s with opened := s.opened.eraseP (·.1 == b) }
    match b with
    | .brace => { s with braces := s.braces - 1 }
    | .square => { s with squares := s.squares - 1 }
    | .round => { s with rounds := s.rounds - 1 }

/-- Does `c` end the substitution of a template literal that the pass is in? -/
def closesExpr (s : State) (c : Char) : Bool :=
  c == '}' && s.context == .templateExpr && s.exprDepths.head? == some s.braces

/-- A fault for the construct that the pass is still in at the end of the text, if there is one,
and else for the last bracket that is open.  A line comment ends with the text. -/
def finish (s : State) : State × Option Fault :=
  let s := if s.context = .lineComment then s.leave else s
  let fault : Option Fault :=
    match s.context with
    | .normal | .lineComment =>
      s.opened.head?.map fun (b, position) => ⟨.unclosed b, position⟩
    | .blockComment => some ⟨.unterminatedComment, s.contextStart⟩
    | .singleQuote | .doubleQuote => some ⟨.unterminatedString, s.contextStart⟩
    | .template => some ⟨.unterminatedTemplate, s.contextStart⟩
    | .templateExpr =>
      let template := s.enclosing.find? (·.1 == .template)
      some ⟨.unterminatedTemplate, (template.map (·.2)).getD s.contextStart⟩
  (s, fault)

end State

end ModuleSurface.Lexing

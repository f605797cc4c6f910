import ModuleSurface.Import.Basic
import ModuleSurface.Lexing.Pass

/-!
# Reading import statements

A statement is read from its text without comments and with white space collapsed, so that single
spaces are the only white space.  Three forms are tried in turn: side effects only, a module that
is required by an assignment, and a clause of bindings.
-/

namespace ModuleSurface.ImportStatement

open ModuleSurface.Lexing

/-! ## Pieces -/

/-- What follows the spaces in front. -/
def skipSpaces (t : Text) : Text :=
  t.dropWhile Text.isBlank

/-- What follows the keyword and the space behind it, if the text begins with both. -/
def keyword? (word t : Text) : Option Text :=
  match Text.after? word t with
  | some (c :: rest) => if Text.isBlank c then some (skipSpaces rest) else none
  | _ => none

/-- The quote and what follows it, behind spaces. -/
def openQuote? (t : Text) : Option (Char × Text) :=
  match skipSpaces t with
  | q :: rest => if q == '\'' || q == '"' then some (q, rest) else none
  | [] => none

/-- The module named in quotes at the start of a text: at least one character, and on to the first
closing quote behind it. -/
def source? (t : Text) : Option Text :=
  match openQuote? t with
  | some (q, c :: rest) => if rest.contains q then some (c :: rest.takeWhile (· != q)) else none
  | _ => none

/-! ## The three forms -/

/-- `import 'source'`: the source. -/
def sideEffect? (text : Text) : Option Text :=
  (Text.after? "import".toList text).bind source?

/-- The module named in brackets that end the text. -/
def requiredSource? (t : Text) : Option Text :=
  match openQuote? t with
  | none => none
  | some (q, rest) =>
    match rest.reverse with
    | ')' :: before =>
      match skipSpaces before with
      | d :: c :: source => if d == q then some (c :: source).reverse else none
      | _ => none
    | _ => none

/-- `name = require('source')`: the name and the source. -/
def required? (t : Text) : Option (Text × Text) :=
  let name := t.takeWhile Text.isIdentChar
  if name.isEmpty then none
  else
    match skipSpaces (t.drop name.length) with
    | '=' :: rest =>
      ((Text.after? "require(".toList (skipSpaces rest)).bind requiredSource?).map fun s =>
        (name, s)
    | _ => none

/-- The word `from` at the start of a text and the source behind it, where `before` is the character
in front of the text. -/
def fromSource? (before : Option Char) (t : Text) : Option Text :=
  if before.any Text.isWordChar then none
  else (Text.after? "from".toList t).bind source?

/-- The shortest clause in front of a source, and that source.  `before` is the character in front
of the text, and `clause` what was passed over, in reverse. -/
def clauseFrom? (before : Option Char) (clause : Text) : Text → Option (Text × Text)
  | [] => none
  | c :: t =>
    let spaces := (c :: t).takeWhile Text.isBlank
    let last := if spaces.isEmpty then before else spaces.getLast?
    match fromSource? last (skipSpaces (c :: t)) with
    | some source => some (clause.reverse, source)
    | none => clauseFrom? (some c) (c :: clause) t

/-! ## Bindings -/

/-- A named binding; nothing if it is blank. -/
def binding? (text : Text) : Option ImportBinding :=
  let whole := Text.strip text
  if whole.isEmpty then none
  else
    let marked := (Text.after? "type ".toList whole).map Text.strip
    let isTypeOnly := Text.isPresent marked
    let text := if isTypeOnly then marked.getD [] else whole
    match Text.find? text " as ".toList with
    | some i =>
      some { name := text.take i, rename := some (text.drop (i + 4)), isTypeOnly := isTypeOnly }
    | none => some { name := text, isTypeOnly := isTypeOnly }

/-- The local name in `* as name`. -/
def namespaceName? (part : Text) : Option Text :=
  match part with
  | '*' :: rest =>
    match keyword? "as".toList (skipSpaces rest) with
    | some name => if !name.isEmpty && name.all Text.isIdentChar then some name else none
    | none => none
  | _ => none

/-- The pieces of a text between its commas. -/
def commaPieces (t : Text) : List Text :=
  t.splitOn ','

/-- The offset of the last `c` in a text. -/
def lastIndex? (t : Text) (c : Char) : Option Nat :=
  (t.reverse.idxOf? c).map fun i => t.length - 1 - i

/-- The statement with the bindings in front of the curly brackets added. -/
def withHead (s : ImportStatement) (head : Text) : ImportStatement :=
  (((commaPieces head).map Text.strip).filter (!·.isEmpty)).foldl
    (fun s part =>
      match namespaceName? part with
      | some name => { s with namespaceBinding := some name }
      | none => { s with defaultBinding := some part })
    s

/-- The statement with the bindings of a clause added.  There is none if its curly brackets do not
close behind where they open. -/
def withClause? (s : ImportStatement) (clause : Text) : Option ImportStatement :=
  match clause.idxOf? '{' with
  | none => some (withHead s clause)
  | some brace =>
    match lastIndex? clause '}' with
    | none => none
    | some close =>
      if close < brace then none
      else
        let named := (commaPieces (Text.slice clause (brace + 1) close)).filterMap binding?
        some (withHead { s with namedBindings := named } (clause.take brace))

/-! ## Statements -/

/-- The statement of a clause in front of `from`. -/
def ofClause? (raw rest : Text) : Option ImportStatement :=
  let typed := (keyword? "type".toList rest).bind fun t => clauseFrom? (some ' ') [] t
  match typed with
  | some (clause, source) =>
    let clause := Text.strip clause
    if clause.isEmpty then withClause? { source := source, raw := raw } "type".toList
    else withClause? { source := source, isTypeOnly := true, raw := raw } clause
  | none =>
    (clauseFrom? (some ' ') [] rest).bind fun (clause, source) =>
      withClause? { source := source, raw := raw } (Text.strip clause)

/-- The statement written as `raw`.  Forms that bind nothing that can be tracked, such as a call,
are none. -/
def parse? (raw : Text) : Option ImportStatement :=
  let text := Text.dropRightWhile (· == ';') (Text.collapse (stripComments raw))
  match sideEffect? text with
  | some source => some { source := source, isSideEffect := true, raw := raw }
  | none =>
    (keyword? "import".toList text).bind fun rest =>
      match (keyword? "type".toList rest).bind required? with
      | some (name, source) =>
        some
          { source := source, defaultBinding := some name, isTypeOnly := true, isRequire := true
            raw := raw }
      | none =>
        match required? rest with
        | some (name, source) =>
          some { source := source, defaultBinding := some name, isRequire := true, raw := raw }
        | none => ofClause? raw rest

end ModuleSurface.ImportStatement

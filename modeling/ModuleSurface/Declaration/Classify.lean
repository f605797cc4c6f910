import ModuleSurface.Declaration.Basic
import ModuleSurface.Import.Parser
import ModuleSurface.Statement.Segment
import ModuleSurface.Text.Lines

/-!
# What a statement declares

`classify` reads a statement and answers its declarations, the import it makes, and notices about
what it passes over.
-/

namespace ModuleSurface

open ModuleSurface.Lexing
open ModuleSurface.Callable
open ModuleSurface.Statement

/-- What was found in a statement. -/
structure Finding where
  /-- The declarations in order. -/
  declarations : List Declaration := []
  /-- The imports in order. -/
  imports : List ImportStatement := []
  /-- The notices in order. -/
  notices : List Notice := []
  deriving DecidableEq, Repr

namespace Finding

/-- One declaration. -/
def one (d : Declaration) : Finding :=
  { declarations := [d] }

/-- One notice. -/
def notice (n : Notice) : Finding :=
  { notices := [n] }

/-- What was found in one statement after another. -/
def append (a b : Finding) : Finding where
  declarations := a.declarations ++ b.declarations
  imports := a.imports ++ b.imports
  notices := a.notices ++ b.notices

instance : Append Finding := ⟨append⟩

end Finding

namespace Declaration

/-! ## Blocks and clauses -/

/-- The text in front of the first block of curly brackets, and the block. -/
def splitBlock (text : Text) : Text × Option Text :=
  match findOutermost? text "\x7b".toList 0 true with
  | none => (Text.stripSemicolon text, none)
  | some brace =>
    let head := Text.strip (text.take brace)
    match matching? text brace with
    | none => (head, none)
    | some close => (head, some (Text.slice text brace (close + 1)))

/-- The clause behind a keyword, up to another keyword; nothing if it is blank. -/
def clause? (head keyword : Text) (until? : Option Text) : Option Text :=
  match findOutermost? head keyword 0 true with
  | none => none
  | some i =>
    let stop :=
      ((until?.bind fun w => findOutermost? head w i true)).getD head.length
    let clause := Text.collapse (Text.slice head (i + keyword.length) stop)
    if clause.isEmpty then none else some clause

/-- A class, an interface or an enumeration, given the text behind its keyword.  `base` holds what
is common to the declarations of a statement. -/
def ofBlock (kind : DeclarationKind) (rest : Text) (modifiers : List Text) (base : Declaration) :
    Finding :=
  let rest := Text.stripLeft rest
  let (word, behind) := readIdentifier rest 0
  -- an unnamed class goes straight on with its heritage
  let isUnnamed := word = "extends".toList ∨ word = "implements".toList
  let name := if isUnnamed then [] else word
  let (generics, behind) := readGenerics rest (if isUnnamed then 0 else behind)
  let (head, block) := splitBlock (rest.drop behind)
  if block.isNone && kind != .classType then .notice (.missingBody kind name)
  else
    .one
      { base with
        kind := kind
        name := name
        generics := generics
        extended :=
          if kind = .classType then clause? head "extends".toList (some "implements".toList)
          else if kind = .interface then clause? head "extends".toList none
          else none
        implemented := if kind = .classType then clause? head "implements".toList none else none
        modifiers := modifiers
        body := some (block.getD "\x7b\x7d".toList) }

/-- A namespace, a module or the global scope, given the text behind its keyword. -/
def ofModule (keyword rest : Text) (base : Declaration) : Finding :=
  let (name, tail) :=
    if keyword = "global".toList then
      if rest.head? == some '{' then (keyword, rest) else ([], rest)
    else
      match Text.quotedWidth? rest with
      | some n => (rest.take n, rest.drop n)
      | none =>
        let (name, behind) := readDotted rest 0
        (name, rest.drop behind)
  if name.isEmpty then {}
  else
    .one
      { base with
        kind := .scope, name := name, modifiers := [keyword], body := (splitBlock tail).2 }

/-- A type alias, given the text behind its keyword. -/
def ofTypeAlias (rest : Text) (base : Declaration) : Finding :=
  let (name, behind) := readIdentifier rest 0
  let (generics, behind) := readGenerics rest behind
  match Text.stripLeft (rest.drop behind) with
  | '=' :: body =>
    .one
      { base with
        kind := .typeAlias
        name := name
        generics := generics
        body := some (Text.stripSemicolon body) }
  | _ => {}

/-! ## Functions -/

/-- A function statement without its body. -/
def functionHeader (raw : Text) (hasBody : Bool) : Text :=
  let block :=
    if hasBody then (((outermost raw false).filter (·.char == '{')).getLast?).map (·.index)
    else none
  match block with
  | some start => Text.stripRight (raw.take start)
  | none => Text.stripSemicolon raw

/-- A function, given the statement from its first keyword on. -/
def ofFunction (body : Text) (base : Declaration) : Finding :=
  match Signature.parseFunction? body with
  | none => .notice (.malformedFunction (Notice.excerpt base.raw))
  | some (name, signature) =>
    .one
      { base with
        kind := .function
        name := name
        raw := functionHeader base.raw signature.hasBody
        modifiers := if signature.isAsync then ["async".toList] else []
        generics := signature.generics
        parameters := some signature.parameters
        returnType := signature.returnType
        signature := some { signature with doc := base.doc } }

/-! ## Variables -/

/-- A text that is not empty. -/
def nonempty? (t : Text) : Option Text :=
  if t.isEmpty then none else some t

/-- The variable of one declarator, if it has a name. -/
def ofDeclarator? (keyword declarator : Text) (base : Declaration) : Option Declaration :=
  let (name, behind) := readIdentifier declarator 0
  if name.isEmpty then none
  else
    let tail := Text.stripLeft (declarator.drop behind)
    let tail := if tail.head? == some '!' then Text.stripLeft (tail.drop 1) else tail
    let assignment := findAssignment? tail
    let head := Text.strip (match assignment with | some eq => tail.take eq | none => tail)
    some
      { base with
        kind := .binding
        name := name
        modifiers := [keyword]
        declaredType :=
          if head.head? == some ':' then nonempty? (Text.collapse (head.drop 1)) else none
        value := assignment.bind fun eq => nonempty? (Text.strip (tail.drop (eq + 1))) }

/-- The declaration moved to a declarator of its statement, at `offset` from the statement's
start. -/
def movedTo (base : Declaration) (declarator : Text) (offset : Nat) : Declaration :=
  { base with
    raw := declarator
    start := base.start + offset
    stop := base.start + offset + declarator.length }

/-- The variables of the declarators, each looked for in the statement from `cursor` on.  The
documentation comment goes to the first variable. -/
def ofDeclarators (keyword : Text) (base : Declaration) (cursor : Nat) :
    List Text → Finding
  | [] => {}
  | declarator :: others =>
    let offset := (Text.find? (base.raw.drop cursor) declarator).map (cursor + ·)
    let next :=
      match offset with
      | some o => max cursor (o + declarator.length)
      -- as if the declarator stood one character in front of the statement
      | none => max cursor (declarator.length - 1)
    let own := (offset.map (movedTo base declarator)).getD base
    match ofDeclarator? keyword declarator own with
    | none =>
      Finding.notice (.destructuring (Notice.excerpt declarator)) ++
        ofDeclarators keyword base next others
    | some d => Finding.one d ++ ofDeclarators keyword { base with doc := none } next others

/-- The variables of a statement, given the text behind its keyword. -/
def ofVariables (keyword rest : Text) (base : Declaration) : Finding :=
  match splitTypedCommas (Text.stripSemicolon rest) with
  | [declarator] =>
    match ofDeclarator? keyword declarator base with
    | none => .notice (.destructuring (Notice.excerpt declarator))
    | some d => .one d
  | declarators => ofDeclarators keyword base 0 declarators

/-! ## Imports and exports -/

/-- An import, given the text behind its keyword.  A call and a property access declare nothing. -/
def ofImport (rest : Text) (base : Declaration) : Finding :=
  if rest.head? == some '(' || rest.head? == some '.' then {}
  else
    match ImportStatement.parse? base.raw with
    | none => .notice (.unsupportedImport (Notice.excerpt base.raw))
    | some s =>
      { declarations :=
          [{ base with kind := .imports, isTypeOnly := s.isTypeOnly, source := some s.source }]
        imports := [s] }

/-- The module named in quotes behind the word `from`, if both stand at the start of the text. -/
def fromModule? (t : Text) : Option Text :=
  match Text.after? "from".toList t with
  | none => none
  | some rest =>
    match Text.stripLeft rest with
    | [] => none
    | quote :: rest =>
      let line := rest.takeWhile (· != '\n')
      if (quote == '\'' || quote == '"') && line.contains quote then
        some (line.takeWhile (· != quote))
      else none

/-- The module named behind the first word `from` that names one, where `before` is the character in
front of the text. -/
def sourceFrom? (before : Option Char) : Text → Option Text
  | [] => none
  | c :: t =>
    let here := if before.any Text.isWordChar then none else fromModule? (c :: t)
    here.or (sourceFrom? (some c) t)

/-- A list of names, a whole module or an assignment that is exported as it stands, given the text
behind the keyword. -/
def ofPassthrough? (body : Text) (base : Declaration) : Option Declaration :=
  let typed := Text.stripLeft (body.drop 4)
  let isTypeOnly :=
    Text.startsWithName "type".toList body && typed.head?.any fun c => c == '{' || c == '*'
  let rest := if isTypeOnly then typed else body
  if rest.head?.any fun c => c == '{' || c == '*' || c == '=' then
    some
      { base with
        kind := .exports
        isTypeOnly := isTypeOnly
        source := sourceFrom? none rest
        value := some (Text.stripSemicolon rest) }
  else none

/-! ## Statements -/

/-- The statement without a keyword in front, if it begins with it. -/
def dropKeyword? (word : String) (t : Text) : Option Text :=
  if Text.startsWithName word.toList t then some (Text.stripLeft (t.drop word.length)) else none

/-- A declaration given by its keywords, with `body` from the first of them on. -/
def ofKeyword (body : Text) (base : Declaration) : Finding :=
  let (keyword, behind) := readIdentifier body 0
  let rest := Text.stripLeft (body.drop behind)
  let isKeyword (word : String) : Bool := keyword == word.toList
  let isFunction :=
    isKeyword "function" || (isKeyword "async" && Text.startsWithName "function".toList rest)
  let isAbstractClass := isKeyword "abstract" && Text.startsWithName "class".toList rest
  let declares := isFunction || isKeyword "class" || isKeyword "interface" || isAbstractClass
  if isKeyword "import" && !base.isExported then ofImport rest base
  else if base.isDefault && !declares then
    .one { base with kind := .exports, value := some (Text.stripSemicolon body) }
  -- asked before the variables, as both begin with the same word
  else if isKeyword "const" && Text.startsWithName "enum".toList rest then
    ofBlock .enum (rest.drop 4) ["const".toList] base
  else if isKeyword "const" || isKeyword "let" || isKeyword "var" then ofVariables keyword rest base
  else if isFunction then ofFunction body base
  else if isKeyword "interface" then ofBlock .interface rest [] base
  else if isKeyword "type" && rest.head?.any Text.isIdentChar then ofTypeAlias rest base
  else if isKeyword "class" then ofBlock .classType rest [] base
  else if isAbstractClass then ofBlock .classType (rest.drop 5) ["abstract".toList] base
  else if isKeyword "enum" then ofBlock .enum rest [] base
  else if isKeyword "namespace" || isKeyword "module" || isKeyword "global" then
    ofModule keyword rest base
  else
    .notice (.unrecognizedStatement base.start (Notice.excerpt (Text.collapse base.raw)))

/-- A declaration behind the mark of one that is made elsewhere, if it has that mark. -/
def ofAmbient (body : Text) (base : Declaration) : Finding :=
  match dropKeyword? "declare" body with
  | some body => ofKeyword body { base with isAmbient := true }
  | none => ofKeyword body base

/-- What the statement `raw` at the offset `start` declares. -/
def classify (raw : Text) (start : Nat) (doc : Option Text) : Finding :=
  let base : Declaration :=
    { kind := .exports, raw := raw, doc := doc, start := start, stop := start + raw.length }
  let body := stripDecorators raw
  if Text.startsWithName "export".toList body then
    let body := stripDecorators (body.drop 6)
    let base := { base with isExported := true }
    match ofPassthrough? body base with
    | some d => .one d
    | none =>
      match dropKeyword? "default" body with
      | some body => ofAmbient body { base with isDefault := true }
      | none => ofAmbient body base
  else ofAmbient body base

end Declaration

end ModuleSurface

import ModuleSurface.Callable.Parameter
import ModuleSurface.Narrowing.Assertion
import ModuleSurface.Narrowing.InferredType
import ModuleSurface.Narrowing.ObjectMethod

/-!
# The narrowest type of a value

`infer` gives the narrowest faithful type of a value that is written out in a source; what it does
not recognise is `unknown`.  A constant keeps literal types and turns arrays into tuples, and passes
this on to the values inside it.

Every rule is written once, against a parameter `typeOf` that types the values inside: `layer` is
one level of the inference and `infer` ties the knot.
-/

namespace ModuleSurface.Narrowing

open ModuleSurface.Lexing
open ModuleSurface.Callable

/-- Types for the values inside a value; the flag says whether they are constant. -/
abbrev Typing := Text → Bool → InferredType

/-- The type text of a default value. -/
def widenedText (typeOf : Typing) (value : Text) : Text :=
  (typeOf value false).widen.text

/-! ## Literals -/

/-- The type of a literal. -/
def ofLiteral? (expr : Text) (isConst : Bool) : Option InferredType :=
  let kept (primitive : String) : InferredType :=
    if isConst then .literal expr else .reference primitive.toList
  if expr.head?.any (fun c => c == '\'' || c == '"') && Literal.isSingle expr then
    some (.literal expr)
  else if expr.head? == some '\x60' && Literal.isSingle expr then
    if Text.containsText expr "$\x7b".toList then some (kept "string") else some (.literal expr)
  else if Literal.isNumber expr then some (kept "number")
  else if Literal.isBigInt expr then some (kept "bigint")
  else if expr = "true".toList ∨ expr = "false".toList then some (kept "boolean")
  else if expr = "null".toList ∨ expr = "undefined".toList then some (.literal expr)
  else none

/-! ## Arrays -/

/-- The type of an array with the given content. -/
def ofArray (typeOf : Typing) (content : Text) (isConst : Bool) : InferredType :=
  let elements := splitCommas content
  if isConst then
    let types := elements.map fun e => (typeOf e true).text
    ⟨"readonly [".toList ++ Text.join ", ".toList types ++ "]".toList, .tuple⟩
  else if elements.isEmpty then ⟨"never[]".toList, .array⟩
  else
    let members := (elements.map fun e => (typeOf e false).inUnion).eraseDups
    ⟨"Array<".toList ++ Text.join " | ".toList members ++ ">".toList, .array⟩

/-! ## Objects -/

/-- A text in single quotes, with backslashes and quotes escaped. -/
def quoted (t : Text) : Text :=
  let escaped := t.flatMap fun c => if c == '\\' || c == '\'' then ['\\', c] else [c]
  "'".toList ++ escaped ++ "'".toList

/-- The key of a property as written in an object type.  A computed key has none. -/
def propertyKey? (key : Text) : Option Text :=
  match Text.strip key with
  | [] => none
  | c :: t =>
    if c == '[' then none
    else if c == '\'' || c == '"' || Text.isIdentifier (c :: t) || (c :: t).all Text.isDigit then
      some (c :: t)
    else some (quoted (c :: t))

/-- A return type that is there and not empty, or `unknown`. -/
def writtenOrUnknown : Option Text → Text
  | some (c :: t) => c :: t
  | _ => "unknown".toList

/-- A type inside a promise. -/
def promised (t : Text) : Text :=
  "Promise<".toList ++ t ++ ">".toList

/-- A function type. -/
def functionType (generics : Option Text) (parameters returned : Text) : InferredType :=
  ⟨generics.getD [] ++ "(".toList ++ parameters ++ ") => ".toList ++ returned, .function⟩

/-- The return type of a function whose author may have written one.  Without it an asynchronous
function returns a promise of something unknown. -/
def annotatedReturn (returnType : Option Text) (isAsync : Bool) : Text :=
  let isWritten := returnType.any (!·.isEmpty)
  if isAsync && !isWritten then promised (writtenOrUnknown returnType)
  else writtenOrUnknown returnType

/-- The type of a function with the given signature. -/
def ofSignature (typeOf : Typing) (s : Signature) (isAsync : Bool) : InferredType :=
  functionType s.generics (renderParameters (widenedText typeOf) s.parameters)
    (annotatedReturn s.returnType isAsync)

/-- The type text of a method.  A setter has none, and neither has a method that cannot be read. -/
def methodType? (typeOf : Typing) (m : ObjectMethod) : Option Text :=
  match Signature.readAt (Text.stripLeft m.rest) 0 with
  | none => none
  | some s =>
    match m.accessor with
    | some .getter => some (writtenOrUnknown s.returnType)
    | some .setter => none
    | none => some (ofSignature typeOf s m.isAsync).text

/-- The entry of an object type for a property.  Spread properties, computed keys and setters have
none; a shorthand property refers to a binding whose type is not known here. -/
def entryOf? (typeOf : Typing) (isConst : Bool) (property : Text) : Option Text :=
  if "...".toList.isPrefixOf property then none
  else
    match ObjectMethod.parse? property with
    | some m => (methodType? typeOf m).map fun t => m.key ++ ": ".toList ++ t
    | none =>
      match findOutermost? property ":".toList 0 false with
      | none =>
        if Text.isIdentifier property then some (property ++ ": unknown".toList) else none
      | some colon =>
        (propertyKey? (property.take colon)).map fun key =>
          key ++ ": ".toList ++ (typeOf (property.drop (colon + 1)) isConst).text

/-- The type of an object with the given content. -/
def ofObject (typeOf : Typing) (content : Text) (isConst : Bool) : InferredType :=
  let entries := (splitCommas content).filterMap (entryOf? typeOf isConst)
  if entries.isEmpty then ⟨"\x7b\x7d".toList, .object⟩
  else ⟨"\x7b ".toList ++ Text.join "; ".toList entries ++ " \x7d".toList, .object⟩

/-! ## Functions -/

/-- Does the expression begin with the keyword of a function, or does it have an arrow outside
every bracket? -/
def isFunctionExpression (expr : Text) : Bool :=
  let head := (afterAsync? expr).getD expr
  ("function".toList.isPrefixOf head && !Text.isIdentifier (head.take 9)) ||
    (findOutermost? expr "=>".toList 0 true).isSome

/-- The parameters of an arrow function at `i`, a list in brackets or one name, and what follows
them. -/
def arrowParameters? (text : Text) (i : Nat) : Option (List Text × Text) :=
  if text[i]? == some '(' then
    (matching? text i).map fun close =>
      (splitTypedCommas (Text.slice text (i + 1) close), text.drop (close + 1))
  else
    let (name, behind) := readIdentifier text i
    if name.isEmpty then none else some ([name], text.drop behind)

/-- The return type of an arrow function, given the text between its parameters and its arrow and
the text behind the arrow. -/
def arrowReturn (typeOf : Typing) (head body : Text) (isAsync : Bool) : Text :=
  let written := Text.strip (head.drop 1)
  if head.head? == some ':' && !written.isEmpty then
    annotatedReturn (some (Text.collapse written)) isAsync
  else if body.head? == some '{' then annotatedReturn none isAsync
  else
    let returned := writtenOrUnknown (some (typeOf body false).text)
    if isAsync then promised returned else returned

/-- The type of an arrow function. -/
def ofArrow (typeOf : Typing) (text : Text) (isAsync : Bool) : InferredType :=
  let (generics, behind) := readGenerics text 0
  match arrowParameters? text (skipBlank text behind) with
  | none => .unknown
  | some (parameters, after) =>
    match findOutermost? after "=>".toList 0 true with
    | none => .unknown
    | some arrow =>
      functionType generics (renderParameters (widenedText typeOf) parameters)
        (arrowReturn typeOf (Text.strip (after.take arrow)) (Text.strip (after.drop (arrow + 2)))
          isAsync)

/-- The type of a function expression. -/
def ofFunction (typeOf : Typing) (expr : Text) : InferredType :=
  let isAsync := (afterAsync? expr).isSome
  let rest := (afterAsync? expr).getD expr
  if "function".toList.isPrefixOf rest then
    match Signature.parseFunction? rest with
    | some (_, s) => ofSignature typeOf s isAsync
    | none => .unknown
  else ofArrow typeOf rest isAsync

/-! ## Constructors and well-known calls -/

/-- The types of the constructors whose name alone does not say enough. -/
def constructedTypes : List (Text × Text) :=
  [("Date", "Date"), ("Map", "Map<any, any>"), ("Set", "Set<any>"),
   ("WeakMap", "WeakMap<any, any>"), ("WeakSet", "WeakSet<any>"), ("RegExp", "RegExp"),
   ("Error", "Error"), ("Array", "any[]"),
   ("Promise", "Promise<any>")].map fun p => (p.1.toList, p.2.toList)

/-- The type of what a constructor call makes, given the text behind its keyword. -/
def ofConstructor (rest : Text) : InferredType :=
  let (name, behind) := readDotted rest 0
  if name.isEmpty then .unknown
  else
    match (readGenerics rest behind).1 with
    | some generics => .reference (name ++ generics)
    | none => .reference ((constructedTypes.lookup name).getD name)

/-- The arguments of a call, if the expression is nothing but a call of `callee`. -/
def callArguments? (expr callee : Text) : Option Text :=
  if (callee ++ "(".toList).isPrefixOf expr &&
      matching? expr callee.length == some (expr.length - 1) then
    some (expr.drop (callee.length + 1)).dropLast
  else none

/-- The type of a call that makes a promise. -/
def ofPromise (typeOf : Typing) (expr : Text) : InferredType :=
  match callArguments? expr "Promise.resolve".toList with
  | some value =>
    let inner := if Text.isBlankText value then "void".toList else (typeOf value false).text
    ⟨promised inner, .promise⟩
  | none =>
    if (callArguments? expr "Promise.reject".toList).isSome then ⟨promised "never".toList, .promise⟩
    else
      match callArguments? expr "Promise.all".toList with
      | none => .unknown
      | some values =>
        let values := Text.strip values
        if isBracketed values '[' then
          let types := (splitCommas (values.drop 1).dropLast).map fun e => (typeOf e false).text
          ⟨promised ("[".toList ++ Text.join ", ".toList types ++ "]".toList), .promise⟩
        else ⟨promised "unknown[]".toList, .promise⟩

/-! ## All rules -/

/-- The type of an expression that is neither a function, an assertion nor a literal. -/
def ofPrimary (typeOf : Typing) (expr : Text) (isConst : Bool) : InferredType :=
  let inner := (expr.drop 1).dropLast
  if isBracketed expr '[' then ofArray typeOf inner isConst
  else if isBracketed expr '{' then ofObject typeOf inner isConst
  else if isBracketed expr '(' then typeOf inner isConst
  else
    match afterWord? "new".toList expr with
    | some rest => ofConstructor rest
    | none =>
      if "Promise.".toList.isPrefixOf expr then ofPromise typeOf expr
      else if Text.startsWithAny expr ["Symbol(".toList, "Symbol.for(".toList] &&
          expr.getLast? == some ')' then
        .reference "symbol".toList
      else .unknown

/-- The type of an expression without comments and surrounding blanks. -/
def ofExpression (typeOf : Typing) (expr : Text) (isConst : Bool) : InferredType :=
  if isFunctionExpression expr then ofFunction typeOf expr
  else
    match assertion? expr with
    | some a =>
      if a.word = .cast ∧ a.target = "const".toList then typeOf a.value true
      else .reference a.target
    | none => (ofLiteral? expr isConst).getD (ofPrimary typeOf expr isConst)

/-- One level of the inference: the type of a value, where `typeOf` types the values inside it. -/
def layer (typeOf : Typing) (value : Text) (isConst : Bool) : InferredType :=
  let expr := Text.stripSemicolon (stripComments value)
  if expr.isEmpty then .unknown else ofExpression typeOf expr isConst

/-- The narrowest type of a value.  The recursion limit is not modelled: the program answers
`unknown` where it runs into that limit, and here every value is read to its end. -/
def infer (value : Text) (isConst : Bool) : InferredType :=
  -- every rule asks about shorter texts, so the comparison never fails
  layer (fun inner c => if inner.length < value.length then infer inner c else .unknown) value
    isConst
termination_by value.length

/-- The type text of a default value, with literals widened. -/
def widenedType (value : Text) : Text :=
  widenedText infer value

/-- The parameters as written in a declaration.  An untyped one gets the widened type of its default
value. -/
def parameterList (parameters : List Text) : Text :=
  renderParameters widenedType parameters

end ModuleSurface.Narrowing

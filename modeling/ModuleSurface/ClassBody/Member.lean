import ModuleSurface.Narrowing.Infer
import ModuleSurface.Text.Lines

/-!
# Class members

The declaration lines of one member of a class.  Private members, members with a hash name and
static blocks have none; a constructor also declares the properties among its parameters.
-/

namespace ModuleSurface.ClassBody

open ModuleSurface.Lexing
open ModuleSurface.Callable
open ModuleSurface.Narrowing

/-! ## Modifiers -/

/-- The words that may stand in front of a member. -/
def modifierWords : List Text :=
  ["public", "private", "protected", "static", "abstract", "readonly", "override", "declare",
   "async", "accessor"].map String.toList

/-- The modifiers that are written in declarations, in their order there. -/
def writtenModifiers : List Text :=
  ["protected", "static", "abstract", "readonly"].map String.toList

/-- The modifiers that turn a parameter of a constructor into a property. -/
def propertyModifiers : List Text :=
  ["public", "private", "protected", "readonly"].map String.toList

/-- A word in front of one of these signs is the name of a member and no modifier. -/
def nameFollowers : Text :=
  "(:=?!;<,".toList

/-- Does the text go on with a member, so that the word in front of it is no name? -/
def followsModifier (rest : Text) : Bool :=
  match rest with
  | [] => false
  | c :: _ => !nameFollowers.contains c

/-- A modifier in front of a member is read off the text, so that less of it is left. -/
theorem length_afterModifier_lt {text : Text}
    (h : modifierWords.contains (readIdentifier text 0).1 = true) :
    (Text.stripLeft (text.drop (readIdentifier text 0).2)).length < text.length := by
  have h₁ := Text.length_stripLeft_le (text.drop (readIdentifier text 0).2)
  have h₂ : 0 < (readIdentifier text 0).1.length := by
    cases hw : (readIdentifier text 0).1 with
    | nil => rw [hw] at h; exact absurd h (by decide)
    | cons => simp
  have h₃ : 0 < text.length := by
    cases text with
    | nil => simp [readIdentifier, skipBlank] at h₂
    | cons => simp
  have h₄ : (readIdentifier text 0).1.length ≤ (readIdentifier text 0).2 := by
    simp only [readIdentifier]
    omega
  simp only [List.length_drop] at h₁
  omega

/-- The modifiers in front of a member, and the member without them. -/
def takeModifiers (text : Text) : List Text × Text :=
  let word := (readIdentifier text 0).1
  let rest := Text.stripLeft (text.drop (readIdentifier text 0).2)
  if _h : modifierWords.contains word = true ∧ followsModifier rest = true then
    let others := takeModifiers rest
    (word :: others.1, others.2)
  else ([], Text.stripLeft text)
termination_by text.length
decreasing_by exact length_afterModifier_lt _h.1

/-- The modifiers as written in front of a declaration. -/
def modifierText (modifiers : List Text) : Text :=
  (writtenModifiers.filter modifiers.contains).flatMap (· ++ " ".toList)

/-! ## Names -/

/-- The name of a member and the offset behind it: a private name, a quoted name, a computed name or
an identifier.  The name is empty if there is none. -/
def readName (text : Text) : Text × Nat :=
  match text with
  | [] => ([], 0)
  | c :: _ =>
    if c == '#' then
      let (name, behind) := readIdentifier text 1
      ('#' :: name, behind)
    else if c == '\'' || c == '"' then
      match Text.quotedWidth? text with
      | some n => (text.take n, n)
      | none => ([], 0)
    else if c == '[' then
      match matching? text 0 with
      | some close => (Text.collapse (text.take (close + 1)), close + 1)
      | none => ([], 0)
    else readIdentifier text 0

/-- Is the member an index signature? -/
def isIndexMember (text : Text) : Bool :=
  text.head? == some '[' &&
    match matching? text 0 with
    | none => false
    | some close =>
      (Text.stripLeft (text.drop (close + 1))).head? == some ':' &&
        (findOutermost? (Text.slice text 1 close) ":".toList 0 false).isSome

/-! ## Constructors -/

/-- The text in front of the first `sep`, and the text behind it. -/
def partition (text sep : Text) : Text × Text :=
  match Text.find? text sep with
  | some i => (text.take i, text.drop (i + sep.length))
  | none => (text, [])

/-- The property that a parameter of a constructor declares, given its modifiers and the rest of
it. -/
def parameterProperty? (modifiers : List Text) (text : Text) : Option Text :=
  if !modifiers.any propertyModifiers.contains || modifiers.contains "private".toList then none
  else
    let (marked, typeText) := partition ((Parameter.parse text).render widenedType) ": ".toList
    let name :=
      if (findAssignment? text).isSome then Text.dropRightWhile (· == '?') marked else marked
    some (modifierText modifiers ++ name ++ ": ".toList ++ typeText ++ ";".toList)

/-- The lines of a constructor: the properties among its parameters, and the constructor itself. -/
def constructorLines (parameters modifiers : List Text) : List Text :=
  let parts := parameters.map fun p => takeModifiers (stripDecorators p)
  parts.filterMap (fun p => parameterProperty? p.1 p.2) ++
    [modifierText modifiers ++ "constructor(".toList ++ parameterList (parts.map (·.2)) ++
      ");".toList]

/-! ## Members -/

/-- The lines of a method, an accessor or a constructor, given what follows its name. -/
def callableLines (modifiers : List Text) (isGenerator : Bool) (accessor name marker rest : Text) :
    List Text :=
  match Signature.readAt rest 0 with
  | none => []
  | some s =>
    let written := modifierText modifiers
    if name = "constructor".toList then constructorLines s.parameters modifiers
    else if accessor = "set".toList then
      [written ++ "set ".toList ++ name ++ "(".toList ++ parameterList s.parameters ++ ");".toList]
    else if accessor = "get".toList then
      [written ++ "get ".toList ++ name ++ "(): ".toList ++ writtenOrUnknown s.returnType ++
        ";".toList]
    else
      let returnType :=
        s.returnType.getD
          (Signature.defaultReturnType (modifiers.contains "async".toList) isGenerator)
      [written ++ name ++ marker ++ s.generics.getD [] ++ "(".toList ++
        parameterList s.parameters ++ "): ".toList ++ returnType ++ ";".toList]

/-- The line of a property, given what follows its name. -/
def propertyLine (modifiers : List Text) (name marker rest : Text) : Text :=
  let assignment := findAssignment? rest
  let head := Text.stripSemicolon (match assignment with | some eq => rest.take eq | none => rest)
  let value := assignment.map fun eq => Text.stripSemicolon (rest.drop (eq + 1))
  let typeText :=
    match head, value with
    | ':' :: written, _ => Text.collapse written
    | _, some (c :: v) => (infer (c :: v) (modifiers.contains "readonly".toList)).text
    | _, _ => "any".toList
  modifierText modifiers ++ name ++ marker ++ ": ".toList ++ typeText ++ ";".toList

/-- The lines of a member that has a name, given the text from its name on. -/
def namedLines (modifiers : List Text) (isGenerator : Bool) (accessor text : Text) : List Text :=
  let (name, behind) := readName text
  if name.isEmpty || name.head? == some '#' then []
  else
    let rest := Text.stripLeft (text.drop behind)
    let marker := if rest.head? == some '?' then "?".toList else []
    let rest :=
      if rest.head? == some '?' || rest.head? == some '!' then Text.stripLeft (rest.drop 1)
      else rest
    -- a bracket behind the name makes a method of the member, type parameters too
    if rest.head? == some '(' || rest.head? == some '<' then
      callableLines modifiers isGenerator accessor name marker rest
    else [propertyLine modifiers name marker rest]

/-- The accessor word in front of a member, and the member without it.  The word is empty if the
member is no accessor. -/
def takeAccessor (text : Text) : Text × Text :=
  let (word, behind) := readIdentifier text 0
  let rest := Text.stripLeft (text.drop behind)
  if (word = "get".toList ∨ word = "set".toList) ∧ followsModifier rest = true then (word, rest)
  else ([], text)

/-- The declaration lines of a member. -/
def memberLines (member : Text) : List Text :=
  let (modifiers, text) := takeModifiers (stripDecorators member)
  if modifiers.contains "private".toList || text.head? == some '#' || text.head? == some '{' then []
  else if isIndexMember text then
    [modifierText modifiers ++ Text.collapse (Text.stripSemicolon text) ++ ";".toList]
  else
    let isGenerator := text.head? == some '*'
    let text := if isGenerator then Text.stripLeft (text.drop 1) else text
    let (accessor, text) := takeAccessor text
    namedLines modifiers isGenerator accessor text

end ModuleSurface.ClassBody

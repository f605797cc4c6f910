import ModuleSurface.Narrowing.Literal

/-!
# Inferred types

The type found for a value: its text and the rule that gave it.
-/

namespace ModuleSurface

/-- The rule that gave a type. -/
inductive TypeKind where
  /-- The value's own text. -/
  | literal
  /-- An array of unknown length. -/
  | array
  /-- An array of fixed length. -/
  | tuple
  /-- An object type. -/
  | object
  /-- A function type. -/
  | function
  /-- A promise. -/
  | promise
  /-- A named type. -/
  | reference
  /-- Nothing is known. -/
  | unknown
  deriving DecidableEq, Repr

/-- The type of a value. -/
structure InferredType where
  /-- The type as written in a declaration. -/
  text : Text
  /-- The rule that gave it. -/
  kind : TypeKind
  deriving DecidableEq, Repr

namespace InferredType

/-- The type of a value that is not recognised. -/
def unknown : InferredType :=
  ⟨"unknown".toList, .unknown⟩

/-- A value's own text as its type. -/
def literal (text : Text) : InferredType :=
  ⟨text, .literal⟩

/-- A type given by its name. -/
def reference (name : Text) : InferredType :=
  ⟨name, .reference⟩

/-- Is nothing known about the value? -/
def isUnknown (t : InferredType) : Bool :=
  t.kind == .unknown

/-- The type as a member of a union.  A function type needs brackets, as its return type would take
in the rest of the union. -/
def inUnion (t : InferredType) : Text :=
  if t.kind = .function then "(".toList ++ t.text ++ ")".toList else t.text

/-- The primitive type of a literal.  Other types stay as they are. -/
def widen (t : InferredType) : InferredType :=
  if t.kind ≠ .literal then t
  else if t.text.head?.any fun c => c == '\'' || c == '"' || c == '\x60' then
    reference "string".toList
  else if t.text = "true".toList ∨ t.text = "false".toList then reference "boolean".toList
  else if Narrowing.Literal.isBigInt t.text then reference "bigint".toList
  else if Narrowing.Literal.isNumber t.text then reference "number".toList
  else t

end InferredType

end ModuleSurface

import ModuleSurface.Callable.Signature

/-!
# Declarations

A declaration is a statement that introduces a name into a module's surface, brings one in, or hands
one on.  Types and bodies are kept as written.
-/

namespace ModuleSurface

/-- What a declaration declares. -/
inductive DeclarationKind where
  /-- Names from another module. -/
  | imports
  /-- Names or a value handed on. -/
  | exports
  /-- A function. -/
  | function
  /-- A variable. -/
  | binding
  /-- An interface. -/
  | interface
  /-- A type alias. -/
  | typeAlias
  /-- A class. -/
  | classType
  /-- An enumeration. -/
  | enum
  /-- A namespace, a module or the global scope. -/
  | scope
  deriving DecidableEq, Repr

/-- A statement of a module that declares something. -/
structure Declaration where
  /-- What it declares. -/
  kind : DeclarationKind
  /-- The declared name. -/
  name : Text := []
  /-- The statement as written; of a function its header. -/
  raw : Text
  /-- The documentation comment in front of it. -/
  doc : Option Text := none
  /-- Is it exported? -/
  isExported : Bool := false
  /-- Is it about types only? -/
  isTypeOnly : Bool := false
  /-- Is it the default export? -/
  isDefault : Bool := false
  /-- Is it marked as declared elsewhere? -/
  isAmbient : Bool := false
  /-- The type parameters with their angle brackets. -/
  generics : Option Text := none
  /-- The types it extends. -/
  extended : Option Text := none
  /-- The interfaces it implements. -/
  implemented : Option Text := none
  /-- The keywords that mark it, such as the keyword of a variable. -/
  modifiers : List Text := []
  /-- The parameters of a function as written. -/
  parameters : Option (List Text) := none
  /-- The return type of a function as written. -/
  returnType : Option Text := none
  /-- The signatures of a function in front of its own. -/
  overloads : List Signature := []
  /-- The signature of a function. -/
  signature : Option Signature := none
  /-- The type of a variable as written. -/
  declaredType : Option Text := none
  /-- The value of a variable, or what is exported. -/
  value : Option Text := none
  /-- The block of a class, an interface, an enumeration or a module, or the right side of a type
  alias. -/
  body : Option Text := none
  /-- The module that names come from. -/
  source : Option Text := none
  /-- The offset of its first character. -/
  start : Nat := 0
  /-- The offset behind its last character. -/
  stop : Nat := 0
  deriving DecidableEq, Repr

/-- Something that was passed over while declarations were read. -/
inductive Notice where
  /-- A closing bracket that closes nothing, with its line. -/
  | unbalancedBracket (bracket : Char) (line : Nat)
  /-- The body of a control statement without curly brackets, at its offset. -/
  | controlledStatement (start : Nat)
  /-- A statement that declares nothing, at its offset. -/
  | unrecognizedStatement (start : Nat) (text : Text)
  /-- An import that binds nothing that can be tracked. -/
  | unsupportedImport (text : Text)
  /-- A variable that takes its value apart. -/
  | destructuring (text : Text)
  /-- A function whose header cannot be read. -/
  | malformedFunction (text : Text)
  /-- A declaration that needs a body and has none. -/
  | missingBody (kind : DeclarationKind) (name : Text)
  deriving DecidableEq, Repr

namespace Notice

/-- Is the notice a warning? -/
def isWarning : Notice → Bool
  | unbalancedBracket .. => true
  | _ => false

/-- The wording of a notice. -/
def message : Notice → Text
  | unbalancedBracket .. => "Ignoring unbalanced closing bracket".toList
  | controlledStatement .. => "Skipping body of brace-less control statement".toList
  | unrecognizedStatement .. => "Skipping unrecognized top-level statement".toList
  | unsupportedImport .. => "Skipping unsupported import form".toList
  | destructuring .. => "Skipping destructuring declaration".toList
  | malformedFunction .. => "Skipping malformed function header".toList
  | missingBody .. => "Skipping declaration without body".toList

/-- The beginning of a text, as far as a notice quotes it. -/
def excerpt (t : Text) : Text :=
  t.take 60

end Notice

end ModuleSurface

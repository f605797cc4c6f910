import ModuleSurface.Text.Identifier

/-!
# Import statements

An import statement names a source and binds local names: a default, a namespace, or named bindings
with optional aliases.  A side-effect import binds nothing.  `ImportStatement.render` writes a
statement with a choice of its bindings.
-/

namespace ModuleSurface

/-- A text that is there and not empty. -/
def Text.isPresent (t : Option Text) : Bool :=
  t.any (!·.isEmpty)

/-- A named binding of an import. -/
structure ImportBinding where
  /-- The name in the source. -/
  name : Text
  /-- The local name, if it is another one. -/
  rename : Option Text := none
  /-- Is the binding marked as a type? -/
  isTypeOnly : Bool := false
  deriving DecidableEq, Repr

namespace ImportBinding

/-- The name that the binding has in the module. -/
def localName (b : ImportBinding) : Text :=
  match b.rename with
  | some (c :: t) => c :: t
  | _ => b.name

/-- The binding as written in a statement. -/
def render (b : ImportBinding) : Text :=
  let text :=
    match b.rename with
    | some (c :: t) => b.name ++ " as ".toList ++ c :: t
    | _ => b.name
  if b.isTypeOnly then "type ".toList ++ text else text

end ImportBinding

/-- An import statement. -/
structure ImportStatement where
  /-- The module that is imported. -/
  source : Text
  /-- The local name of the default export. -/
  defaultBinding : Option Text := none
  /-- The local name of the whole module. -/
  namespaceBinding : Option Text := none
  /-- The named bindings in order. -/
  namedBindings : List ImportBinding := []
  /-- Is the whole statement about types? -/
  isTypeOnly : Bool := false
  /-- Does the statement bind nothing? -/
  isSideEffect : Bool := false
  /-- Is the module required by an assignment? -/
  isRequire : Bool := false
  /-- The statement as written. -/
  raw : Text := []
  deriving DecidableEq, Repr

namespace ImportStatement

/-- Are some bindings marked as types in a statement that is not about types as a whole? -/
def isMixed (s : ImportStatement) : Bool :=
  !s.isTypeOnly && s.namedBindings.any (·.isTypeOnly)

/-- The local names that a statement binds. -/
def localNames (s : ImportStatement) : List Text :=
  (s.defaultBinding.toList ++ s.namespaceBinding.toList).filter (!·.isEmpty) ++
    s.namedBindings.map (·.localName)

/-- The statement with the given bindings in place of its own. -/
def render (s : ImportStatement) (defaultBinding namespaceBinding : Option Text)
    (namedBindings : List ImportBinding) : Text :=
  let keyword := if s.isTypeOnly then "import type ".toList else "import ".toList
  let source := "'".toList ++ s.source ++ "'".toList
  if s.isSideEffect then "import ".toList ++ source ++ ";".toList
  else if s.isRequire then
    keyword ++ defaultBinding.getD "None".toList ++ " = require(".toList ++ source ++ ");".toList
  else
    let parts :=
      (if Text.isPresent defaultBinding then defaultBinding.toList else []) ++
      (if Text.isPresent namespaceBinding then
        namespaceBinding.toList.map ("* as ".toList ++ ·) else []) ++
      (if namedBindings.isEmpty then []
        else ["\x7b ".toList ++ Text.join ", ".toList (namedBindings.map (·.render)) ++
          " \x7d".toList])
    keyword ++ Text.join ", ".toList parts ++ " from ".toList ++ source ++ ";".toList

end ImportStatement

end ModuleSurface

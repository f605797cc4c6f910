import ModuleSurface.Import.Parser
import ModuleSurface.Lexing.Walk

/-!
# Keeping the imports that are used

An import survives with the bindings that the declarations mention; side-effect imports always
survive.  What is kept is sorted: preferred sources first, then by text.
-/

namespace ModuleSurface

open ModuleSurface.Lexing

/-- An import reduced to the bindings that are used. -/
structure RetainedImport where
  /-- The statement it comes from. -/
  statement : ImportStatement
  /-- The default binding, if it is used. -/
  defaultBinding : Option Text := none
  /-- The namespace binding, if it is used. -/
  namespaceBinding : Option Text := none
  /-- The named bindings that are used, in order. -/
  namedBindings : List ImportBinding := []
  /-- The reduced statement as written. -/
  text : Text
  deriving DecidableEq, Repr

namespace ImportStatement

/-- The statement with the bindings whose local names are used, if any are left. -/
def reduce? (s : ImportStatement) (used : Text → Bool) : Option RetainedImport :=
  if s.isSideEffect then some { statement := s, text := s.render none none [] }
  else
    let usedDefault := s.defaultBinding.filter used
    let usedNamespace := s.namespaceBinding.filter used
    let named := s.namedBindings.filter fun b => used b.localName
    if !Text.isPresent usedDefault && !Text.isPresent usedNamespace && named.isEmpty then none
    else
      some
        { statement := s
          defaultBinding := usedDefault
          namespaceBinding := usedNamespace
          namedBindings := named
          text := s.render usedDefault usedNamespace named }

end ImportStatement

namespace RetainedImport

/-- The rank of a source: the place of the first preferred text that it begins with. -/
def priority (source : Text) (preferred : List Text) : Nat :=
  preferred.findIdx fun p => p.isPrefixOf source

/-- The order of the import section: by rank, then by text. -/
def precedes (preferred : List Text) (a b : RetainedImport) : Bool :=
  let rankA := priority a.statement.source preferred
  let rankB := priority b.statement.source preferred
  decide (rankA < rankB) || (rankA == rankB && Text.le a.text b.text)

/-- The imports in the order of the import section. -/
def sort (imports : List RetainedImport) (preferred : List Text) : List RetainedImport :=
  imports.mergeSort (precedes preferred)

/-- The imports reduced to the bindings that the code of a text mentions, in order. -/
def ofUsage (statements : List ImportStatement) (text : Text) (preferred : List Text) :
    List RetainedImport :=
  let used := identifiers text
  sort (statements.filterMap (·.reduce? used.contains)) preferred

/-- The statements of which the code of a text mentions nothing. -/
def unused (statements : List ImportStatement) (text : Text) : List ImportStatement :=
  let used := identifiers text
  statements.filter fun s => (s.reduce? used.contains).isNone

end RetainedImport

end ModuleSurface

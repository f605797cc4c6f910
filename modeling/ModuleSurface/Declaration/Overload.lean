import ModuleSurface.Declaration.Basic

/-!
# Overloads

A run of functions of one name without bodies belongs to the function that follows it.
`groupOverloads` folds such a run into one declaration: the first function with a body becomes the
primary one, and a run without any body keeps its last function as the primary one.
-/

namespace ModuleSurface.Declaration

/-- The primary declaration with the signatures in front of it. -/
def withOverloads (overloads : List Declaration) (primary : Declaration) : Declaration :=
  match overloads with
  | [] => primary
  | first :: _ =>
    { primary with overloads := overloads.filterMap (·.signature), start := first.start }

/-- The declaration for a run of functions without bodies, if the run is not empty. -/
def ofRun (run : List Declaration) : List Declaration :=
  match run.getLast? with
  | none => []
  | some primary => [withOverloads run.dropLast primary]

/-- The declarations with overloads grouped, where `run` are the functions without bodies directly
in front of them. -/
def groupFrom (run : List Declaration) : List Declaration → List Declaration
  | [] => ofRun run
  | d :: ds =>
    match d.kind, d.signature with
    | .function, some signature =>
      let sameName := run.head?.all (·.name == d.name)
      let closed := if sameName then [] else ofRun run
      let run := if sameName then run else []
      if signature.hasBody then closed ++ withOverloads run d :: groupFrom [] ds
      else closed ++ groupFrom (run ++ [d]) ds
    | _, _ => ofRun run ++ d :: groupFrom [] ds

/-- The declarations with the overloads of each function grouped. -/
def groupOverloads (ds : List Declaration) : List Declaration :=
  groupFrom [] ds

end ModuleSurface.Declaration

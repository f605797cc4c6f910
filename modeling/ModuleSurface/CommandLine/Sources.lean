import ModuleSurface.CommandLine.Pattern
import ModuleSurface.Files.Sources

/-!
# Sources by patterns

The command finds its sources by a search with two lists of patterns, one for what is included and
one for what is excluded, and reads their texts.
-/

namespace ModuleSurface.Files

/-- The selection that two lists of patterns make. -/
def Selection.ofPatterns (included excluded : List Text) : Except PatternFault Selection :=
  match parsePatterns included, parsePatterns excluded with
  | .ok included, .ok excluded => .ok ⟨selects included, selects excluded⟩
  | .error f, _ => .error f
  | _, .error f => .error f

/-- Why the sources cannot be read. -/
inductive SourceFault where
  /-- The path of the directory has a character that no path may have. -/
  | unnameable
  /-- A pattern is malformed. -/
  | pattern (f : PatternFault)
  /-- A file is no text. -/
  | notText
  /-- A file is gone. -/
  | missing
  deriving DecidableEq, Repr

/-- The text of the file at the names, with its line ends unified. -/
def FileSystem.readSource (fs : FileSystem) (names : List Text) : Except SourceFault Text :=
  match fs.tree.get? names with
  | some (.file content) =>
    match decodeBytes? content with
    | some t => .ok (Text.unifyNewlines t)
    | none => .error .notText
  | _ => .error .missing

/-- The search for the files below a directory that two lists of patterns ask for. -/
def FileSystem.discover (fs : FileSystem) (root : FilePath) (included excluded : List Text) :
    Except SourceFault Search :=
  if root.isUnnameable then .error .unnameable
  else
    match Selection.ofPatterns included excluded with
    | .error f => .error (.pattern f)
    | .ok s => .ok (fs.search root s)

/-- The wanted files below a directory with their texts, in order. -/
def FileSystem.collect (fs : FileSystem) (root : FilePath) (included excluded : List Text) :
    Except SourceFault (List Source) :=
  match fs.discover root included excluded with
  | .error f => .error f
  | .ok search =>
    search.found.mapM fun file =>
      (fs.readSource (fs.resolve root ++ file.splitOn '/')).map fun text =>
        { file := file, text := text }

end ModuleSurface.Files

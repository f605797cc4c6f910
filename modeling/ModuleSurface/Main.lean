import ModuleSurface.CommandLine.Run

/-!
# The command

The outer layer of the command: it reads what stands below the working directory and at the paths
that the arguments and settings name, runs the command on it, carries out what has changed and
prints what was printed.
-/

namespace ModuleSurface.Command

open ModuleSurface.Files

/-- The entry of a directory with everything below it. -/
partial def load (entry : IO.FS.DirEntry) : IO (Text × Node) := do
  let name := entry.fileName.toList
  if ← entry.path.isDir then
    let entries ← (← entry.path.readDir).mapM load
    return (name, .dir entries.toList)
  else
    return (name, .file (← IO.FS.readBinFile entry.path).toList)

/-- The home directories of the users. -/
def loadHomes : IO (Named FilePath) := do
  let own := (← IO.getEnv "HOME").toList.map fun home => ([], FilePath.parse home.toList)
  let accounts ←
    try IO.FS.readFile "/etc/passwd"
    catch _ => pure ""
  return own ++ accountHomes accounts.toList

/-- The file system with everything below the working directory. -/
def loadWorkingDir : IO FileSystem := do
  let here ← IO.currentDir
  let names := (FilePath.parse here.toString.toList).parts
  let entries ← (← here.readDir).mapM load
  let fs := (FileSystem.ofFiles names []).set names (some (.dir entries.toList))
  return { fs with homes := ← loadHomes }

/-- The file system with what stands at a path that is not below the working directory. -/
def loadPath (fs : FileSystem) (p : FilePath) : IO FileSystem := do
  let names := fs.resolve p
  let parent : FilePath := { root := "/".toList, parts := names.dropLast }
  let name := names.getLast?.getD []
  let entry : IO.FS.DirEntry :=
    { root := String.ofList parent.text, fileName := String.ofList name }
  if fs.workingDir.isPrefixOf names || name.isEmpty then return fs
  else if !(← entry.path.pathExists) then return fs
  else return (fs.makeDirs parent).1.set names (some (← load entry).2)

/-- The variables of the environment that give settings. -/
def settingVariables : IO (Named Text) := do
  let mut found : Named Text := []
  for name in Config.Setting.names do
    let name := Config.variableName Config.defaultStem name
    for spelling in [name.map Char.toUpper, name] do
      if let some value ← IO.getEnv (String.ofList spelling) then
        found := found ++ [(spelling, value.toList)]
  return found

/-- The file system with everything that a run with the arguments looks at. -/
def loadAll (vars : Named Text) (arguments : List Text) : IO FileSystem := do
  let mut fs ← loadWorkingDir
  if let .ok r := CommandLine.Request.read {} arguments then
    if let some config := r.config then
      fs ← loadPath fs (FilePath.parse config)
      if let some expanded := fs.expandHome? (FilePath.parse config) then
        fs ← loadPath fs expanded
    if let .ok order := r.order (CommandLine.namesFile fs) then
      if let .ok s := order.settings fs vars then
        fs ← loadPath fs (FilePath.parse s.root)
        fs ← loadPath fs (FilePath.parse s.outdir)
  return fs

/-- Writes and removes the files that have changed. -/
def carryOut (changes : Changes) : IO Unit := do
  for (path, content) in changes.changed do
    let parent := (FilePath.parse path).parent
    IO.FS.createDirAll (String.ofList parent.text)
    IO.FS.writeBinFile (String.ofList path) (ByteArray.mk content.toArray)
  for path in changes.removed do
    IO.FS.removeFile (String.ofList path)

/-- Prints a text on a stream. -/
def print (stream : IO.FS.Stream) (t : Text) : IO Unit :=
  stream.putStr (String.ofList t)

/-- Runs the command with the arguments and gives its exit code. -/
def perform (arguments : List Text) : IO UInt32 := do
  let vars ← settingVariables
  let before ← loadAll vars arguments
  let (after, outcome) := CommandLine.run before vars arguments
  carryOut (changes before.allFiles after.allFiles)
  match outcome with
  | .finished _ output errors =>
    print (← IO.getStdout) output
    print (← IO.getStderr) errors
  | .misused f => print (← IO.getStderr) ("Error: ".toList ++ f.message ++ ['\n'])
  | .aborted why => print (← IO.getStderr) (why.message ++ ['\n'])
  return outcome.exitCode.toUInt32

end ModuleSurface.Command

/-- The command. -/
def main (arguments : List String) : IO UInt32 :=
  ModuleSurface.Command.perform (arguments.map String.toList)

import ModuleSurface.CommandLine.Arguments
import ModuleSurface.CommandLine.Sources
import ModuleSurface.Config.Load
import ModuleSurface.Files.Home
import ModuleSurface.Files.Output

/-!
# Runs

A run of the command turns a file system, the variables of the environment and arguments into the
file system afterwards and an outcome: what was printed, a misuse, or the reason why the run was
given up.
-/

namespace ModuleSurface.CommandLine

open ModuleSurface.Files

/-- Why a run was given up. -/
inductive Abort where
  /-- The settings cannot be loaded. -/
  | settings (f : Config.LoadFault)
  /-- The settings file is no text. -/
  | configNotText
  /-- The settings file is below the home directory of a user that does not exist. -/
  | unknownUser
  /-- The sources cannot be read. -/
  | sources (f : SourceFault)
  /-- There is nobody to do the work. -/
  | workers (f : WorkerFault)
  /-- The declaration files cannot be written. -/
  | files (f : FileFault)
  deriving DecidableEq, Repr

/-- What is printed about the reason to give up. -/
def Abort.message : Abort → Text
  | settings (.toml _) => "The settings file is malformed.".toList
  | settings (.json _) | settings (.shape _) => "The JSON file is malformed.".toList
  | settings .malformedList => "A variable for a list is malformed.".toList
  | settings (.invalid problems) =>
    "Invalid settings: ".toList ++ Text.join ", ".toList (problems.map (·.location))
  | configNotText => "The settings file is no text.".toList
  | unknownUser => "There is no such user.".toList
  | sources (.pattern _) => "A pattern is malformed.".toList
  | sources .unnameable => "The sources are in no directory.".toList
  | sources .notText => "A source is no text.".toList
  | sources .missing => "A source is missing.".toList
  | workers .noWorkers => "The number of workers is not positive.".toList
  | files _ => "The declaration files cannot be written.".toList

/-- How a run ended. -/
inductive Outcome where
  /-- To its end; `failures` says whether some source failed. -/
  | finished (failures : Bool) (output : Text) (errors : Text)
  /-- By arguments that cannot be understood. -/
  | misused (f : UsageFault)
  /-- By a reason to give up. -/
  | aborted (why : Abort)
  deriving DecidableEq, Repr

/-- The exit code: zero if all is well, two for a misuse, and one for everything else. -/
def Outcome.exitCode : Outcome → Nat
  | .finished failures _ _ => if failures then 1 else 0
  | .misused _ => 2
  | .aborted _ => 1

/-! ## Printing -/

/-- Is the code of the character in the closed range? -/
def isBetween (first last : Nat) (c : Char) : Bool :=
  decide (first ≤ c.toNat) && decide (c.toNat ≤ last)

/-- The number of characters of the terminal sequence that a text begins with, or zero.  A sequence
begins with the escape character and an opening bracket; then come parameters, then intermediate
characters, and one character that ends it. -/
def sequenceWidth (t : Text) : Nat :=
  match t with
  | '\x1B' :: '[' :: u =>
    let parameters := u.takeWhile (isBetween 0x30 0x3F)
    let rest := u.drop parameters.length
    let intermediates := rest.takeWhile (isBetween 0x20 0x2F)
    if (rest.drop intermediates.length).head?.any (isBetween 0x40 0x7E) then
      parameters.length + intermediates.length + 3
    else 0
  | _ => 0

/-- The text without the sequences that control a terminal. -/
def printable (t : Text) : Text :=
  match t with
  | [] => []
  | c :: u =>
    if sequenceWidth (c :: u) == 0 then c :: printable u
    else printable (u.drop (sequenceWidth (c :: u) - 1))
termination_by t.length
decreasing_by all_goals simp only [List.length_cons, List.length_drop]; omega

/-- A printed line. -/
def line (t : Text) : Text :=
  printable t ++ ['\n']

/-- What is printed for a declaration file that is not written. -/
def preview (outdir : FilePath) (layout : OutputLayout) (g : Generated) : Text :=
  match g.output? with
  | none => []
  | some text => line ("// ".toList ++ (declarationPath g.file outdir layout).text) ++ line text

/-- What is printed for a source that failed. -/
def complaint (g : Generated) : Text :=
  if g.status == .failed then
    line (g.file ++ " failed to generate: ".toList ++ g.error?.getD "None".toList)
  else []

/-- What is printed when help is asked for. -/
def helpText : Text :=
  Text.join ['\n'] <| List.map String.toList
    ["Usage: main [OPTIONS]", "",
      "  Generate narrowly typed declaration files for TypeScript sources.", "", "Options:",
      "  --root TEXT                     Source root (default: ./src).",
      "  --outdir TEXT                   Output directory (default: ./dist).",
      "  --entrypoint TEXT               gitwildmatch pattern selecting sources; may be",
      "                                  repeated.",
      "  --exclude TEXT                  gitwildmatch pattern of sources to skip; may",
      "                                  be repeated.",
      "  --keep-comments / --no-keep-comments",
      "                                  Carry doc comments over to the output.",
      "  --import-order TEXT             Module prefix whose imports are listed first;",
      "                                  may be repeated.",
      "  --output-structure [mirror|flat]",
      "                                  Mirror the source tree or write all files flat",
      "                                  into the output directory.",
      "  --clean / --no-clean            Empty outdir first.",
      "  --workers INTEGER               Worker thread count.",
      "  --config FILE                   TOML file with generator settings.",
      "  --dry-run                       Print generated declarations instead of",
      "                                  writing them.",
      "  --debug / --no-debug            Enable debug logging.",
      "  -h, --help                      Show this message and exit.",
      ""]

/-! ## Running -/

/-- Does a path name a file?  A path that ends like one of a directory does not. -/
def namesFile (fs : FileSystem) (path : Text) : Except FileFault Bool :=
  let final := ((path.splitOn '/').getLast?).getD []
  if (FilePath.parse path).isUnnameable then .error .unnameable
  else .ok (!final.isEmpty && final != ".".toList && fs.isFile (FilePath.parse path))

/-- The text of the settings file.  A tilde in front stands for a home directory; if there is no
file then, the text is empty. -/
def configText (fs : FileSystem) (path : Text) : Except Abort Text :=
  match fs.expandHome? (FilePath.parse path) with
  | none => .error .unknownUser
  | some path =>
    match (fs.locate? path).bind fs.tree.get? with
    | some (.file content) =>
      match decodeBytes? content with
      | some t => .ok t
      | none => .error .configNotText
    | _ => .ok []

/-- The settings for an order. -/
def Order.settings (o : Order) (fs : FileSystem) (environment : Named Text) :
    Except Abort Config.Settings := do
  let toml ← o.config.mapM (configText fs)
  (Config.Settings.load
    { explicit := o.explicit, environment := environment, toml := toml }).mapError .settings

/-- The declaration files for the settings. -/
def results (fs : FileSystem) (s : Config.Settings) : Except Abort (List Generated) := do
  let sources ← (fs.collect (FilePath.parse s.root) s.entrypoints s.exclude).mapError .sources
  let options : SurfaceOptions := { keepComments := s.keepComments, preferred := s.importOrder }
  (generateAll options s.workerCount sources).mapError .workers

/-- The file system and the outcome after declaration files were made. -/
def finish (fs : FileSystem) (s : Config.Settings) (dryRun : Bool) (rs : List Generated) :
    FileSystem × Outcome :=
  let outdir := FilePath.parse s.outdir
  let failures := rs.any fun g => g.status == .failed
  let errors := (rs.map complaint).flatten
  if dryRun then (fs, .finished failures ((rs.map (preview outdir s.layout)).flatten) errors)
  -- nothing is written beside a failure unless the settings ask for it
  else if failures && !s.continueOnError then (fs, .finished failures [] errors)
  else
    match writeAll fs outdir s.layout s.clean rs with
    | (fs, .ok _) => (fs, .finished failures [] errors)
    | (fs, .error f) => (fs, .aborted (.files f))

/-- The file system and the outcome after an order. -/
def Order.run (o : Order) (fs : FileSystem) (environment : Named Text) : FileSystem × Outcome :=
  match o.settings fs environment with
  | .error why => (fs, .aborted why)
  | .ok s =>
    let root := FilePath.parse s.root
    if fs.isOutOfReach root then (fs, .aborted (.files .tooLong))
    else if !fs.isDir root then (fs, .misused (.notDirectory root.text))
    else
      match results fs s with
      | .error why => (fs, .aborted why)
      | .ok rs => finish fs s o.dryRun rs

/-- The file system and the outcome after a run with the arguments.  Help goes before everything but
options that cannot be understood. -/
def run (fs : FileSystem) (environment : Named Text) (arguments : List Text) :
    FileSystem × Outcome :=
  match Request.read {} arguments with
  | .error f => (fs, .misused f)
  | .ok r =>
    if r.help then (fs, .finished false helpText [])
    else
      match r.order (namesFile fs) with
      | .error (.usage f) => (fs, .misused f)
      | .error (.path f) => (fs, .aborted (.files f))
      | .ok o => o.run fs environment

end ModuleSurface.CommandLine

import ModuleSurface.Config.Settings
import ModuleSurface.Files.Tree

/-!
# Arguments

What the arguments of a command ask for.  An option with a value takes the text behind its equals
sign or else the next argument, whatever that looks like; a flag takes no value.  If an option is
given several times, the last one counts, or all of them where a list is wanted.

The options are the program's own; how arguments are taken apart is a matter of the package `click`,
which is no part of the program.
-/

namespace ModuleSurface.CommandLine

/-- What the arguments ask for. -/
structure Request where
  /-- The directory with the sources. -/
  root : Option Text := none
  /-- The directory for the declaration files. -/
  outdir : Option Text := none
  /-- The patterns that select sources. -/
  entrypoints : List Text := []
  /-- The patterns that exclude sources. -/
  excludes : List Text := []
  /-- Are doc comments kept? -/
  keepComments : Option Bool := none
  /-- The beginnings of the modules whose imports come first. -/
  importOrder : List Text := []
  /-- The name of the layout. -/
  layout : Option Text := none
  /-- Is the output directory removed first? -/
  clean : Option Bool := none
  /-- The number of workers. -/
  workers : Option Text := none
  /-- The settings file. -/
  config : Option Text := none
  /-- Are the declaration files printed and not written? -/
  dryRun : Bool := false
  /-- Is more reported? -/
  debug : Bool := false
  /-- Is help asked for? -/
  help : Bool := false
  /-- The arguments that belong to no option. -/
  extra : List Text := []
  /-- The options with a value, in the order in which they were given first. -/
  given : List Text := []
  deriving DecidableEq, Repr

/-- The options with a value. -/
def valueOptions : Named (Text → Request → Request) :=
  [("--root".toList, fun v r => { r with root := some v }),
    ("--outdir".toList, fun v r => { r with outdir := some v }),
    ("--entrypoint".toList, fun v r => { r with entrypoints := r.entrypoints ++ [v] }),
    ("--exclude".toList, fun v r => { r with excludes := r.excludes ++ [v] }),
    ("--import-order".toList, fun v r => { r with importOrder := r.importOrder ++ [v] }),
    ("--output-structure".toList, fun v r => { r with layout := some v }),
    ("--workers".toList, fun v r => { r with workers := some v }),
    ("--config".toList, fun v r => { r with config := some v })]

/-- The flags. -/
def flags : Named (Request → Request) :=
  [("--keep-comments".toList, fun r => { r with keepComments := some true }),
    ("--no-keep-comments".toList, fun r => { r with keepComments := some false }),
    ("--clean".toList, fun r => { r with clean := some true }),
    ("--no-clean".toList, fun r => { r with clean := some false }),
    ("--dry-run".toList, fun r => { r with dryRun := true }),
    ("--debug".toList, fun r => { r with debug := true }),
    ("--no-debug".toList, fun r => { r with debug := false }),
    ("--help".toList, fun r => { r with help := true })]

/-- The arguments cannot be understood. -/
inductive UsageFault where
  /-- There is no such option. -/
  | unknownOption (name : Text)
  /-- The option needs a value. -/
  | missingValue (name : Text)
  /-- The flag takes no value. -/
  | unwantedValue (name : Text)
  /-- The value of the option is none that it takes. -/
  | badValue (name : Text)
  /-- An argument belongs to no option. -/
  | extraArgument (argument : Text)
  /-- The sources are in no directory. -/
  | notDirectory (path : Text)
  deriving DecidableEq, Repr

/-- What is printed about arguments that cannot be understood. -/
def UsageFault.message : UsageFault → Text
  | unknownOption name => "No such option: ".toList ++ name
  | missingValue name => "Option '".toList ++ name ++ "' requires an argument.".toList
  | unwantedValue name => "Option '".toList ++ name ++ "' does not take a value.".toList
  | badValue name => "Invalid value for '".toList ++ name ++ "'.".toList
  | extraArgument argument => "Got unexpected extra argument (".toList ++ argument ++ ")".toList
  | notDirectory path => "Invalid value for --root: ".toList ++ path ++ " is not a directory".toList

/-- Does an argument look like an option? -/
def isOption (argument : Text) : Bool :=
  argument.head? == some '-' && decide (1 < argument.length)

/-- Is the argument the short form of the flag for help, once or more? -/
def isShortHelp : Text → Bool
  | '-' :: t => !t.isEmpty && t.all (· == 'h')
  | _ => false

/-- The name of an option and the value behind its equals sign. -/
def splitOption (argument : Text) : Text × Option Text :=
  match argument.dropWhile (· != '=') with
  | _ :: value => (argument.takeWhile (· != '='), some value)
  | [] => (argument, none)

/-- The request with the option among the ones that were given. -/
def Request.note (r : Request) (name : Text) : Request :=
  if r.given.contains name then r else { r with given := r.given ++ [name] }

/-- The request with one more option.  `next` is the argument behind the option; the answer says
whether it was taken as the value. -/
def Request.option (r : Request) (argument : Text) (next : Option Text) :
    Except UsageFault (Request × Bool) :=
  let (name, attached) := splitOption argument
  match valueOptions.lookup name, flags.lookup name with
  | some set, _ =>
    match attached, next with
    | some v, _ => .ok (set v (r.note name), false)
    | none, some v => .ok (set v (r.note name), true)
    | none, none => .error (.missingValue name)
  | none, some set =>
    if attached.isSome then .error (.unwantedValue name) else .ok (set r, false)
  | none, none =>
    if isShortHelp argument then .ok ({ r with help := true }, false)
    else .error (.unknownOption name)

/-- The request with more arguments.  Behind two dashes nothing is an option. -/
def Request.read (r : Request) (arguments : List Text) : Except UsageFault Request :=
  match arguments with
  | [] => .ok r
  | argument :: rest =>
    if argument == "--".toList then .ok { r with extra := r.extra ++ rest }
    else if isOption argument then
      match r.option argument rest.head? with
      | .error f => .error f
      | .ok (r, true) => r.read (rest.drop 1)
      | .ok (r, false) => r.read rest
    else { r with extra := r.extra ++ [argument] }.read rest
termination_by arguments.length
decreasing_by all_goals simp only [List.length_cons, List.length_drop]; omega

/-- What is asked for, if it is not help. -/
structure Order where
  /-- The settings that the arguments give. -/
  explicit : Config.Fields
  /-- The settings file. -/
  config : Option Text
  /-- Are the declaration files printed and not written? -/
  dryRun : Bool
  deriving Repr

/-- A field with a value that may be missing. -/
def field? {α : Type} (name : String) (value : α → Config.Value) (v : Option α) :
    Option (Text × Config.Value) :=
  v.map fun v => (name.toList, value v)

/-- A list of texts as a value, unless it is empty. -/
def texts? (ts : List Text) : Option (List Text) :=
  if ts.isEmpty then none else some ts

/-- The settings of a request with the number of its workers. -/
def Request.fields (r : Request) (workers : Option Int) : Config.Fields :=
  let list := fun ts => Config.Value.list (ts.map .text)
  [field? "root" .text r.root, field? "outdir" .text r.outdir,
    field? "entrypoints" list (texts? r.entrypoints), field? "exclude" list (texts? r.excludes),
    field? "keep_comments" .bool r.keepComments,
    field? "import_order" list (texts? r.importOrder), field? "output_structure" .text r.layout,
    field? "clean" .bool r.clean, field? "num_workers" .int workers].filterMap id

/-- Why a request makes no order. -/
inductive OrderFault where
  /-- The arguments cannot be understood. -/
  | usage (f : UsageFault)
  /-- The file system cannot be asked for a path. -/
  | path (f : Files.FileFault)
  deriving DecidableEq, Repr

/-- What is wrong with the value of an option.  `isReadable` says which paths name a file. -/
def Request.fault? (r : Request) (isReadable : Text → Except Files.FileFault Bool) (name : Text) :
    Option OrderFault :=
  let bad := some (.usage (.badValue name))
  if name == "--workers".toList then
    if r.workers.any fun t => (Text.integer? t).isNone then bad else none
  else if name == "--output-structure".toList then
    if r.layout.any fun l => !Named.has Config.layouts l then bad else none
  else if name == "--config".toList then
    match r.config.map isReadable with
    | some (.error f) => some (.path f)
    | some (.ok false) => bad
    | _ => none
  else none

/-- The order that a request makes.  The values of options are looked at in the order in which the
options were given first, and before the arguments that belong to no option. -/
def Request.order (r : Request) (isReadable : Text → Except Files.FileFault Bool) :
    Except OrderFault Order :=
  match r.given.findSome? (r.fault? isReadable), r.extra with
  | some f, _ => .error f
  | none, argument :: _ => .error (.usage (.extraArgument argument))
  | none, [] =>
    .ok
      { explicit := r.fields (r.workers.bind Text.integer?)
        config := r.config
        dryRun := r.dryRun }

end ModuleSurface.CommandLine

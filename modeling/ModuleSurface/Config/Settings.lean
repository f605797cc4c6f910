import ModuleSurface.Config.Value
import ModuleSurface.Files.Path
import ModuleSurface.Text.Integer

/-!
# Settings

The settings of a run, their names and defaults, and what a value must be to be taken for one of
them.  A value that is not taken is a problem; all problems of a configuration are reported
together.

Which values are taken is a matter of the package `pydantic`, which is no part of the program; the
fields and their defaults are the program's own.
-/

namespace ModuleSurface.Config

/-- The settings of a run. -/
structure Settings where
  /-- The directory with the sources. -/
  root : Text := "./src".toList
  /-- The patterns that select sources. -/
  entrypoints : List Text := ["**/*.ts".toList]
  /-- The patterns that exclude sources. -/
  exclude : List Text :=
    ["**/*.d.ts".toList, "**/*.test.ts".toList, "**/*.spec.ts".toList, "node_modules/".toList]
  /-- The directory for the declaration files. -/
  outdir : Text := "./dist".toList
  /-- Are doc comments kept? -/
  keepComments : Bool := true
  /-- The beginnings of the modules whose imports come first. -/
  importOrder : List Text := ["bun".toList]
  /-- How the declaration files are laid out. -/
  layout : Files.OutputLayout := .nested
  /-- Is the output directory removed before writing? -/
  clean : Bool := false
  /-- The number of workers. -/
  workers : Option Int := none
  /-- Are declaration files written if some source failed? -/
  continueOnError : Bool := true
  /-- Is more reported? -/
  verbose : Bool := false
  deriving DecidableEq, Repr

/-- The number of workers that are asked for: at least one, and none in particular if the setting is
missing or zero. -/
def Settings.workerCount (s : Settings) : Option Int :=
  match s.workers with
  | none => none
  | some n => if n == 0 then none else some (max 1 n)

/-! ## Names -/

/-- One of the settings. -/
inductive Setting where
  | root
  | entrypoints
  | exclude
  | outdir
  | keepComments
  | importOrder
  | layout
  | clean
  | workers
  | continueOnError
  | verbose
  deriving DecidableEq, Repr

namespace Setting

/-- The settings with their names. -/
def table : Named Setting :=
  [("root".toList, root), ("entrypoints".toList, entrypoints), ("exclude".toList, exclude),
    ("outdir".toList, outdir), ("keep_comments".toList, keepComments),
    ("import_order".toList, importOrder), ("output_structure".toList, layout),
    ("clean".toList, clean), ("num_workers".toList, workers),
    ("continue_on_error".toList, continueOnError), ("verbose".toList, verbose)]

/-- The names of the settings. -/
def names : List Text :=
  table.map (·.1)

/-- Is the setting a list? -/
def isList (s : Setting) : Bool :=
  s == entrypoints || s == exclude || s == importOrder

example : names.eraseDups.length = names.length := by decide

end Setting

/-! ## Problems -/

/-- Why a value is not taken. -/
inductive ProblemKind where
  /-- There is no setting of the name. -/
  | unknownSetting
  /-- The value is no text. -/
  | notText
  /-- The value is no list. -/
  | notList
  /-- The value is none of the layouts. -/
  | notLayout
  /-- The value cannot be a truth value. -/
  | notBool
  /-- The value is none of the numbers and words for truth values. -/
  | unreadableBool
  /-- The value cannot be a whole number. -/
  | notInt
  /-- The text is no whole number. -/
  | unreadableInt
  /-- The number is too large. -/
  | hugeInt
  /-- The number is not whole. -/
  | fractional
  /-- The number is not finite. -/
  | notFinite
  deriving DecidableEq, Repr

/-- A value that is not taken. -/
structure Problem where
  /-- The name of the setting. -/
  setting : Text
  /-- The offset of the value in a list. -/
  item : Option Nat := none
  /-- Why it is not taken. -/
  kind : ProblemKind
  deriving DecidableEq, Repr

/-- Where a problem is: the name of the setting, and the offset behind a point. -/
def Problem.location (p : Problem) : Text :=
  match p.item with
  | none => p.setting
  | some i => p.setting ++ '.' :: (toString i).toList

/-! ## Values -/

/-- A text. -/
def asText : Value → Except ProblemKind Text
  | .text t => .ok t
  | _ => .error .notText

/-- The words for truth values, in any case. -/
def boolWords : List (Text × Bool) :=
  (["0", "off", "f", "false", "n", "no"].map fun w => (w.toList, false)) ++
    ["1", "on", "t", "true", "y", "yes"].map fun w => (w.toList, true)

/-- The truth value of a whole number: zero or one. -/
def boolOfInt (n : Int) : Except ProblemKind Bool :=
  if n == 0 then .ok false else if n == 1 then .ok true else .error .unreadableBool

/-- A truth value: itself, zero or one, or a word for it.  A number that is not a whole one, or a
large one, cannot be a truth value. -/
def asBool : Value → Except ProblemKind Bool
  | .bool b => .ok b
  | .int n =>
    if Double.isWord n || n == -Double.wordLimit then boolOfInt n else .error .notBool
  | .float x =>
    match x.whole? with
    | some n => if Double.isWord n then boolOfInt n else .error .notBool
    | none => .error .notBool
  | .text t =>
    match boolWords.lookup (t.map Char.toLower) with
    | some b => .ok b
    | none => .error .unreadableBool
  | _ => .error .notBool

/-- A whole number: itself, a truth value for zero or one, or a text of digits.  A number with a
fraction or an exponent is taken if it is whole and not large. -/
def asInt : Value → Except ProblemKind Int
  | .bool b => .ok (if b then 1 else 0)
  | .int n => .ok n
  | .float .notFinite => .error .notFinite
  | .float x =>
    match x.whole? with
    | some n => if Double.isWord n then .ok n else .error .hugeInt
    | none => .error .fractional
  | .text t =>
    match Text.wholeNumber t with
    | .ok n => .ok n
    | .error .unreadable => .error .unreadableInt
    | .error .tooLong => .error .hugeInt
  | _ => .error .notInt

/-- A whole number, or no value. -/
def asOptionalInt : Value → Except ProblemKind (Option Int)
  | .null => .ok none
  | v => (asInt v).map some

/-- The layouts with their names. -/
def layouts : Named Files.OutputLayout :=
  [("mirror".toList, .nested), ("flat".toList, .flat)]

/-- A layout by its name. -/
def asLayout : Value → Except ProblemKind Files.OutputLayout
  | .text t =>
    match layouts.lookup t with
    | some l => .ok l
    | none => .error .notLayout
  | _ => .error .notLayout

/-- The texts of a list, or the problems with its values. -/
def asTexts (setting : Text) : Value → Except (List Problem) (List Text)
  | .list vs =>
    let items := vs.mapIdx fun i v => (i, v)
    let problems := items.filterMap fun (i, v) =>
      match asText v with
      | .ok _ => none
      | .error kind => some { setting := setting, item := some i, kind := kind }
    if problems.isEmpty then .ok (vs.filterMap fun v => (asText v).toOption) else .error problems
  | _ => .error [{ setting := setting, kind := .notList }]

/-! ## Assigning -/

/-- The settings with one more value, or the problems with it. -/
def Settings.assign (s : Settings) (name : Text) (v : Value) : Except (List Problem) Settings :=
  let whole {α : Type} (r : Except ProblemKind α) : Except (List Problem) α :=
    r.mapError fun kind => [{ setting := name, kind := kind }]
  match Setting.table.lookup name with
  | none => .error [{ setting := name, kind := .unknownSetting }]
  | some .root => (whole (asText v)).map fun t => { s with root := t }
  | some .entrypoints => (asTexts name v).map fun ts => { s with entrypoints := ts }
  | some .exclude => (asTexts name v).map fun ts => { s with exclude := ts }
  | some .outdir => (whole (asText v)).map fun t => { s with outdir := t }
  | some .keepComments => (whole (asBool v)).map fun b => { s with keepComments := b }
  | some .importOrder => (asTexts name v).map fun ts => { s with importOrder := ts }
  | some .layout => (whole (asLayout v)).map fun l => { s with layout := l }
  | some .clean => (whole (asBool v)).map fun b => { s with clean := b }
  | some .workers => (whole (asOptionalInt v)).map fun n => { s with workers := n }
  | some .continueOnError => (whole (asBool v)).map fun b => { s with continueOnError := b }
  | some .verbose => (whole (asBool v)).map fun b => { s with verbose := b }

/-- The settings of a configuration, which are the defaults where it says nothing, or all its
problems. -/
def Settings.ofFields (fields : Fields) : Except (List Problem) Settings :=
  let (s, problems) := fields.foldl
    (fun (s, problems) (name, v) =>
      match s.assign name v with
      | .ok s => (s, problems)
      | .error more => (s, problems ++ more))
    (({} : Settings), ([] : List Problem))
  if problems.isEmpty then .ok s else .error problems

end ModuleSurface.Config

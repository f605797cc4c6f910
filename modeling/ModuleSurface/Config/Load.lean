import ModuleSurface.Config.Toml
import ModuleSurface.Config.VariableFile

/-!
# Loading settings

Settings come from several sources.  For each setting the strongest source that gives it counts:
explicit values, the environment, a file of variables, a settings file, a JSON file, and the default
at last.  The name of a setting may be written in any case.

The order of the sources is the program's own; how each of them is read is a matter of the package
`pydantic-settings`, which is no part of the program.
-/

namespace ModuleSurface.Config

/-- Where settings come from. -/
structure Inputs where
  /-- Explicit values. -/
  explicit : Fields := []
  /-- The variables of the environment. -/
  environment : Named Text := []
  /-- The text of a file of variables. -/
  variableFile : Option Text := none
  /-- The text of a settings file. -/
  toml : Option Text := none
  /-- The text of a JSON file. -/
  json : Option Text := none
  /-- The stem of the variables. -/
  stem : Text := defaultStem

/-- Why the value of a JSON file cannot be taken for fields. -/
inductive ShapeFault where
  /-- A value that has no parts stands where fields, or a name and a value, are expected. -/
  | noParts
  /-- Something has another number of parts than a name and a value. -/
  | notPair
  deriving DecidableEq, Repr

/-- Why settings cannot be loaded. -/
inductive LoadFault where
  /-- The settings file is malformed. -/
  | toml (f : ReadFault)
  /-- The JSON file is malformed. -/
  | json (f : ReadFault)
  /-- The JSON file holds no fields. -/
  | shape (f : ShapeFault)
  /-- A variable for a list is malformed. -/
  | malformedList
  /-- Some values are not taken. -/
  | invalid (problems : List Problem)
  deriving DecidableEq, Repr

/-! ## Files -/

/-- The fields of a settings file. -/
def tomlFields (file : Option Text) : Except LoadFault Fields :=
  match file with
  | none => .ok []
  | some t => (Toml.read t).mapError .toml

/-- The parts of a value: the values of a list, the names of a table, or the characters of a
text. -/
def Value.parts? : Value → Option (List Value)
  | .list vs => some vs
  | .table fields => some (fields.map fun f => .text f.1)
  | .text t => some (t.map fun c => .text [c])
  | _ => none

/-- The field that a value stands for: its two parts are the name and the value. -/
def Value.field (v : Value) : Except ShapeFault (Text × Value) :=
  match v.parts? with
  | none => .error .noParts
  | some [.text name, value] => .ok (name, value)
  | some [_, _] => .error .noParts
  | some _ => .error .notPair

/-- The fields that a value stands for: the ones of a table, or the ones that its parts stand
for. -/
def Value.fields (v : Value) : Except ShapeFault Fields :=
  match v with
  | .table fields => .ok fields
  | v =>
    match v.parts? with
    | none => .error .noParts
    | some parts =>
      (parts.mapM Value.field).map fun fields =>
        fields.foldl (fun fs f => Named.put f.1 f.2 fs) []

/-- The fields of a JSON file.  A blank file has none. -/
def jsonFields (file : Option Text) : Except LoadFault Fields :=
  match file with
  | none => .ok []
  | some t =>
    if Text.isBlankText t then .ok []
    else
      match Json.read t with
      | .error f => .error (.json f)
      | .ok v => v.fields.mapError .shape

/-! ## Sources -/

/-- The value for a setting: the one under its name, or else the first one whose name differs in
case only. -/
def fieldFor? (fields : Fields) (setting : Text) : Option Value :=
  (fields.lookup setting).or ((fields.find? fun f => Text.lower f.1 == setting).map (·.2))

/-- The fields with the names of settings in lower case. -/
def foldSettings (fields : Fields) : Fields :=
  let settings := Setting.names.filterMap fun name => (fieldFor? fields name).map fun v => (name, v)
  settings ++ fields.filter fun f => !Setting.names.contains (Text.lower f.1)

/-- The fields of several sources, the strongest first. -/
def merge (sources : List Fields) : Fields :=
  sources.foldl (fun fields source => fields ++ source.filter fun f => !Named.has fields f.1) []

/-- The settings that the inputs give.  Malformed files are reported before malformed variables, and
these before values that are not taken. -/
def Settings.load (inputs : Inputs) : Except LoadFault Settings := do
  let toml ← tomlFields inputs.toml
  let json ← jsonFields inputs.json
  let stem := if inputs.stem.isEmpty then defaultStem else inputs.stem
  let malformed := fun (_ : VariableFault) => LoadFault.malformedList
  let known : Variables := inputs.environment.map fun v => (v.1, some v.2)
  let environment ← (variableFields stem (foldNames known)).mapError malformed
  let file ←
    match inputs.variableFile with
    | none => .ok []
    | some t => (fileFields stem (foldNames (VariableFile.read known t))).mapError malformed
  let sources :=
    [foldSettings inputs.explicit, environment, file, foldSettings toml, foldSettings json]
  (Settings.ofFields (merge sources)).mapError .invalid

end ModuleSurface.Config

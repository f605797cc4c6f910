import ModuleSurface.Config.Json
import ModuleSurface.Config.Settings
import ModuleSurface.Text.Case

/-!
# Variables

Settings may be given by variables of the environment, or of a file of variables.  The name of the
variable is the name of the setting behind a common stem, in any case.  Lists are written in JSON.
This is how the package `pydantic-settings` reads variables.
-/

namespace ModuleSurface.Config

/-- The stem of the variables if no other is given. -/
def defaultStem : Text :=
  "DTSNARROW_".toList

/-- Variables by name.  A variable may be named without a value. -/
abbrev Variables := Named (Option Text)

/-- The variables with their names in lower case.  Of two with the same name the later counts. -/
def foldNames (vars : Variables) : Variables :=
  vars.foldl (fun vs v => Named.put (Text.lower v.1) v.2 vs) []

/-- The name of the variable for a setting, in lower case. -/
def variableName (stem setting : Text) : Text :=
  Text.lower (stem ++ setting)

/-- A variable for a list is not in JSON. -/
inductive VariableFault where
  /-- The value of the variable is malformed. -/
  | malformedList
  deriving DecidableEq, Repr

/-- The value that a variable gives to a setting.  A list that is null gives none. -/
def variableValue (s : Setting) (t : Text) : Except VariableFault (Option Value) :=
  if s.isList then
    match Json.read t with
    | .error _ => .error .malformedList
    | .ok .null => .ok none
    | .ok v => .ok (some v)
  else .ok (some (.text t))

/-- The field that variables give to a setting. -/
def variableField (stem : Text) (vars : Variables) (setting : Text × Setting) :
    Except VariableFault (Option (Text × Value)) :=
  match (vars.lookup (variableName stem setting.1)).join with
  | none => .ok none
  | some t => (variableValue setting.2 t).map fun v? => v?.map fun v => (setting.1, v)

/-- The fields that variables give.  The names of the variables are in lower case. -/
def variableFields (stem : Text) (vars : Variables) : Except VariableFault Fields :=
  (Setting.table.mapM (variableField stem vars)).map fun fields => fields.filterMap id

/-- Is it the name of the variable for a setting? -/
def isExpected (stem name : Text) : Bool :=
  Setting.names.any fun setting => name == variableName stem setting

/-- The fields that a file of variables gives.  Unlike in the environment, a variable that belongs
to no setting is a field of its own, unless it is empty or has the name of a setting without the
stem. -/
def fileFields (stem : Text) (vars : Variables) : Except VariableFault Fields :=
  (variableFields stem vars).map fun fields =>
    let others := vars.filterMap fun v =>
      let isOther := !Setting.names.contains v.1 && !isExpected stem v.1
      (v.2.filter fun t => isOther && !t.isEmpty).map fun t => (v.1, Value.text t)
    fields ++ others

end ModuleSurface.Config

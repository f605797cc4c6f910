import ModuleSurface.Config.Double
import ModuleSurface.Named

/-!
# Configuration values

The values that configuration files, variables and arguments give to settings.
-/

namespace ModuleSurface.Config

/-- A value of a configuration. -/
inductive Value where
  /-- No value. -/
  | null
  /-- A truth value. -/
  | bool (b : Bool)
  /-- A whole number. -/
  | int (n : Int)
  /-- A number with a fraction or an exponent. -/
  | float (x : Double)
  /-- A text. -/
  | text (t : Text)
  /-- Values one after the other. -/
  | list (vs : List Value)
  /-- Values by name. -/
  | table (fields : List (Text × Value))
  deriving Inhabited, Repr

/-- The fields of a configuration. -/
abbrev Fields := Named Value

end ModuleSurface.Config

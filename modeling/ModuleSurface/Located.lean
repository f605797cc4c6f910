import ModuleSurface.Text.Basic

/-!
# Places in a text

A place is an offset into a text together with the line and the column it falls on, both counted
from one.  `Located` attaches a reason to a place; `describe` is the line a reader gets to see.
-/

namespace ModuleSurface

/-- A reason and the place in a text that it is about. -/
structure Located (ρ : Type) where
  /-- What is the matter. -/
  reason : ρ
  /-- The offset, counted in characters from zero. -/
  position : Nat
  /-- The line, counted from one. -/
  line : Nat
  /-- The column, counted from one. -/
  column : Nat
  deriving DecidableEq, Repr

namespace Located

/-- The offset nearest to `position` that lies in the text or at its end. -/
def clamp (text : Text) (position : Int) : Nat :=
  min position.toNat text.length

/-- The line of an offset: one more than the newlines in front of it. -/
def lineAt (text : Text) (position : Nat) : Nat :=
  (text.take position).count '\n' + 1

/-- The column of an offset: one more than the characters since the last newline. -/
def columnAt (text : Text) (position : Nat) : Nat :=
  ((text.take position).reverse.takeWhile (· != '\n')).length + 1

/-- A reason put at an offset of the text.  Offsets outside the text move to its nearer end. -/
def locate {ρ : Type} (text : Text) (position : Int) (reason : ρ) : Located ρ where
  reason := reason
  position := clamp text position
  line := lineAt text (clamp text position)
  column := columnAt text (clamp text position)

/-- The same place with another reason. -/
def map {ρ σ : Type} (f : ρ → σ) (e : Located ρ) : Located σ where
  reason := f e.reason
  position := e.position
  line := e.line
  column := e.column

/-- The line shown to a reader: the file if one is named, the place, and the reason. -/
def describe (e : Located Text) (file : Option Text) : Text :=
  let place := (toString e.line).toList ++ ":".toList ++ (toString e.column).toList
  match file with
  | some (c :: name) => c :: name ++ ":".toList ++ place ++ ": ".toList ++ e.reason
  | _ => place ++ ": ".toList ++ e.reason

end Located

/-- The line shown for a failure that is about a whole file. -/
def describeFailure (message : Text) (file : Option Text) : Text :=
  match file with
  | some (c :: name) => c :: name ++ ": ".toList ++ message
  | _ => message

end ModuleSurface

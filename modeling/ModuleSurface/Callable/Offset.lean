import ModuleSurface.Callable.Reading
import ModuleSurface.Statement.Boundary

/-!
# Offsets from the end

The readers of a header at an offset that may count from the end of the text.  Such an offset is
negative, and reading goes on with the start of the text behind its end: the offset behind the last
character is zero again.  An offset that is further from the end than the text is long is outside.

`skipBlankFrom_ofNat` and `readIdentifierFrom_ofNat` say that nothing changes for offsets that are
not negative.
-/

namespace ModuleSurface.Callable

open ModuleSurface.Lexing

/-- The characters that are read from an offset on. -/
def charsFrom (text : Text) (i : Int) : Text :=
  if i < 0 then text.drop (text.length - i.natAbs) ++ text else text.drop i.toNat

/-- Is the offset further from the end than the text is long? -/
def isOutside (text : Text) (i : Int) : Bool :=
  decide (i + text.length < 0)

/-- The offset that is meant, counted from the start. -/
def fromStart (text : Text) (i : Int) : Nat :=
  if i < 0 then (i + text.length).toNat else i.toNat

/-- The offset behind the white space at `i`. -/
def skipBlankFrom (text : Text) (i : Int) : Int :=
  i + ((charsFrom text i).takeWhile Text.isBlank).length

/-- The identifier at `i`, behind white space, and the offset behind it.  The identifier is the
piece of the text between its two offsets, which is cut, or empty, if it goes on behind the end. -/
def readIdentifierFrom (text : Text) (i : Int) : Text × Int :=
  let start := skipBlankFrom text i
  let stop := start + ((charsFrom text start).takeWhile Text.isIdentChar).length
  (Text.slice text (fromStart text start) (fromStart text stop), stop)

/-- The list of type parameters at `i`, behind white space, and the offset behind it. -/
def readGenericsFrom (text : Text) (i : Int) : Option Text × Int :=
  let start := skipBlankFrom text i
  if (charsFrom text start).head? == some '<' then
    match matching text start with
    | .ok (some stop) =>
      (some (Text.collapse (Text.slice text (fromStart text start) (stop + 1))), stop + 1)
    | _ => (none, start)
  else (none, start)

/-- Does the first line from `i` on that is not blank continue a statement in front of it? -/
def continuesFrom (text : Text) (i : Int) : Bool :=
  let tail := text.drop (fromStart text i)
  if i < 0 && Text.isBlankText tail then Statement.continues text else Statement.continues tail

/-! ## Offsets from the start -/

theorem charsFrom_ofNat (text : Text) (i : Nat) : charsFrom text i = text.drop i :=
  if_neg (by omega)

theorem fromStart_ofNat (text : Text) (i : Nat) : fromStart text i = i :=
  if_neg (by omega)

theorem skipBlankFrom_ofNat (text : Text) (i : Nat) :
    skipBlankFrom text i = (skipBlank text i : Nat) := by
  simp [skipBlankFrom, skipBlank, charsFrom_ofNat]

/-- A run of characters at an offset is the piece of the text between its ends. -/
theorem slice_add_length_takeWhile (p : Char → Bool) (text : Text) (i : Nat) :
    Text.slice text i (i + ((text.drop i).takeWhile p).length) = (text.drop i).takeWhile p := by
  have h := List.prefix_iff_eq_take.1 (List.takeWhile_prefix p (l := text.drop i))
  rw [Text.slice, List.drop_take, Nat.add_sub_cancel_left]
  exact h.symm

theorem readIdentifierFrom_ofNat (text : Text) (i : Nat) :
    readIdentifierFrom text i =
      ((readIdentifier text i).1, Int.ofNat (readIdentifier text i).2) := by
  have hs := skipBlankFrom_ofNat text i
  simp only [readIdentifierFrom, readIdentifier, hs, charsFrom_ofNat, ← Int.natCast_add,
    fromStart_ofNat, slice_add_length_takeWhile, Int.ofNat_eq_natCast]

end ModuleSurface.Callable

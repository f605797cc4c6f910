import ModuleSurface.Lexing.Walk

/-!
# Searching outside brackets

Splitting and searching at bracket depth zero, and finding the bracket that closes another one.
Angle brackets are not part of the lexical state, as they also compare; where a search asks for
them they are counted along the way, and the second character of an arrow never closes one.
-/

namespace ModuleSurface.Lexing

/-! ## Angle brackets -/

/-- Does the visit open an angle bracket? -/
def Visit.opensAngle (v : Visit) : Bool :=
  v.char == '<'

/-- Does the visit close an angle bracket?  An arrow does not. -/
def Visit.closesAngle (v : Visit) : Bool :=
  v.char == '>' && v.past.head? != some '='

/-- The angle brackets open behind a visit, if `angle` were open in front of it. -/
def Visit.angleAfter (v : Visit) (angle : Nat) : Nat :=
  if v.opensAngle then angle + 1 else if v.closesAngle then angle - 1 else angle

/-- The visits at bracket depth zero.  With `angles` set, also those inside angle brackets are left
out; `angle` of them are open at the start. -/
def outermostFrom (angles : Bool) (angle : Nat) : List Visit → List Visit
  | [] => []
  | v :: vs =>
    let angle := if angles then v.angleAfter angle else 0
    if v.state.depth == 0 && angle == 0 then v :: outermostFrom angles angle vs
    else outermostFrom angles angle vs

/-- The characters of code that stand outside every bracket. -/
def outermost (text : Text) (angles : Bool) : List Visit :=
  outermostFrom angles 0 (visits text)

/-! ## Splitting -/

/-- The text at `position` cut at the given offsets, which are increasing.  The characters at the
cuts belong to no piece. -/
def cutAt (position : Nat) (text : Text) : List Nat → List Text
  | [] => [text]
  | cut :: cuts =>
    text.take (cut - position) :: cutAt (cut + 1) (text.drop (cut + 1 - position)) cuts

/-- The stripped pieces between the outermost characters that satisfy `isSeparator`.  Empty pieces
are dropped, so a separator at the end does no harm. -/
def splitOutermost (text : Text) (isSeparator : Char → Bool) (angles : Bool) : List Text :=
  let cuts := ((outermost text angles).filter fun v => isSeparator v.char).map (·.index)
  ((cutAt 0 text cuts).map Text.strip).filter (!·.isEmpty)

/-- The pieces between the outermost commas. -/
def splitCommas (text : Text) : List Text :=
  splitOutermost text (· == ',') false

/-- The pieces between the commas outside every bracket, angle brackets included. -/
def splitTypedCommas (text : Text) : List Text :=
  splitOutermost text (· == ',') true

/-! ## Searching -/

/-- Does `target` begin at the visit?  A target that begins like a word must not touch another
identifier character. -/
def Visit.begins (v : Visit) (target : Text) : Bool :=
  target.isPrefixOf (v.char :: v.rest) &&
    (!target.head?.any Text.isIdentChar ||
      (!v.past.head?.any Text.isIdentChar &&
        !((v.char :: v.rest).drop target.length).head?.any Text.isIdentChar))

/-- Why a search cannot begin. -/
inductive SearchFault where
  /-- A character outside a text was asked for. -/
  | outside
  /-- The character is no opening bracket. -/
  | noBracket
  deriving DecidableEq, Repr

/-- The offset of the first outermost `target` at or behind `start`. -/
def findOutermost? (text target : Text) (start : Nat) (angles : Bool) : Option Nat :=
  ((outermost text angles).find? fun v => decide (start ≤ v.index) && v.begins target).map (·.index)

/-- The same search for a target that may be empty, which nothing begins with. -/
def findOutermost (text target : Text) (start : Int) (angles : Bool) :
    Except SearchFault (Option Nat) :=
  if target.isEmpty then .error .outside else .ok (findOutermost? text target start.toNat angles)

/-- The offset of the last outermost `target`. -/
def findLastOutermost? (text target : Text) : Option Nat :=
  (((outermost text false).filter (·.begins target)).getLast?).map (·.index)

/-- Is the visit an equals sign that assigns, rather than a part of an arrow or a comparison? -/
def Visit.assigns (v : Visit) : Bool :=
  v.char == '=' && !(v.rest.head?.any fun c => c == '=' || c == '>') &&
    !(v.past.head?.any fun c => c == '=' || c == '!' || c == '<' || c == '>')

/-- The offset of the first assignment outside every bracket, angle brackets included. -/
def findAssignment? (text : Text) : Option Nat :=
  ((outermost text true).find? (·.assigns)).map (·.index)

/-! ## Closing brackets -/

/-- The visit at which the sum of angle brackets, `depth` so far, comes back to zero. -/
def closingAngle? (depth : Int) : List Visit → Option Nat
  | [] => none
  | v :: vs =>
    if v.opensAngle then closingAngle? (depth + 1) vs
    else if v.closesAngle then
      if depth - 1 = 0 then some v.index else closingAngle? (depth - 1) vs
    else closingAngle? depth vs

/-- The visit that closes the bracket opened by the first of the visits. -/
def closingBracket? (b : Bracket) : List Visit → Option Nat
  | [] => none
  | first :: vs =>
    let base := first.state.depthOf b
    (vs.find? fun v => v.char == b.closer && v.state.depthOf b == base + 1).map (·.index)

/-- The visits at or behind an offset. -/
def visitsAt (text : Text) (start : Nat) : List Visit :=
  (visits text).filter fun v => decide (start ≤ v.index)

/-- The offset of the bracket that closes an `opener` at or behind `start`, if there is one. -/
def closingOf (text : Text) (opener : Char) (start : Nat) : Except SearchFault (Option Nat) :=
  if opener == '<' then .ok (closingAngle? 0 (visitsAt text start))
  else
    match Bracket.ofOpener? opener with
    | some b => .ok (closingBracket? b (visitsAt text start))
    | none => .error .noBracket

/-- The offset of the bracket that closes the one at `index`.  A negative index names the bracket
from the end of the text, and then the search begins with the text. -/
def matching (text : Text) (index : Int) : Except SearchFault (Option Nat) :=
  let offset := if index < 0 then index + text.length else index
  if offset < 0 then .error .outside
  else
    match text[offset.toNat]? with
    | none => .error .outside
    | some opener => closingOf text opener index.toNat

/-- The offset of the bracket that closes the one at `index`, if there is one. -/
def matching? (text : Text) (index : Nat) : Option Nat :=
  match matching text index with
  | .ok close => close
  | .error _ => none

/-- Does the bracket that the text begins with close at its very end? -/
def isBracketed (text : Text) (opener : Char) : Bool :=
  text.head? == some opener && matching? text 0 == some (text.length - 1)

/-! ## Pieces are not longer than the whole -/

theorem length_le_of_mem_cutAt {position : Nat} {text piece : Text} {cuts : List Nat}
    (h : piece ∈ cutAt position text cuts) : piece.length ≤ text.length := by
  induction cuts generalizing position text with
  | nil =>
    simp only [cutAt, List.mem_singleton] at h
    simp [h]
  | cons cut cuts ih =>
    simp only [cutAt, List.mem_cons] at h
    rcases h with rfl | h
    · simp only [List.length_take]
      omega
    · have := ih h
      simp only [List.length_drop] at this
      omega

theorem length_le_of_mem_splitOutermost {text piece : Text} {isSeparator : Char → Bool}
    {angles : Bool} (h : piece ∈ splitOutermost text isSeparator angles) :
    piece.length ≤ text.length := by
  simp only [splitOutermost, List.mem_filter, List.mem_map] at h
  obtain ⟨⟨raw, hraw, rfl⟩, _⟩ := h
  exact Nat.le_trans (Text.length_strip_le raw) (length_le_of_mem_cutAt hraw)

end ModuleSurface.Lexing

import ModuleSurface.Statement.Boundary

/-!
# Cutting a text into statements

`segments` cuts a text into the pieces that stand outside every bracket, string, template literal
and comment: the statements of a module, or the members of a class body.  A piece carries the
documentation comment directly in front of it and the closing brackets that were ignored in it.
-/

namespace ModuleSurface.Statement

open ModuleSurface.Lexing

/-- What tells the pieces of a module from those of a class body. -/
structure Layout where
  /-- The signs that may stand between pieces, besides white space. -/
  separators : Text
  /-- Does a closing curly bracket end a piece, unless the next line continues it? -/
  endsAtBrace : Bool
  deriving DecidableEq, Repr

/-- The layout of a module. -/
def Layout.module : Layout :=
  ⟨";".toList, false⟩

/-- The layout of a class body. -/
def Layout.classBody : Layout :=
  ⟨";,".toList, true⟩

/-- A piece of a text. -/
structure Segment where
  /-- The offset of its first character. -/
  start : Nat
  /-- Its text. -/
  text : Text
  /-- The documentation comment in front of it. -/
  doc : Option Text
  /-- The closing brackets in it that close nothing, with their offsets. -/
  ignored : List (Char × Nat)
  deriving DecidableEq, Repr

/-- What stands at the outermost level of a text. -/
inductive Piece where
  /-- A line comment in front of every segment. -/
  | header (line : Text)
  /-- A statement or a member. -/
  | segment (s : Segment)
  deriving DecidableEq, Repr

/-- How a segmentation ended. -/
inductive Ending where
  /-- At the end of the text, in the given state. -/
  | finished (s : State)
  /-- At a fault of the lexical pass. -/
  | faulty (f : Fault)
  /-- At a block comment between two segments that does not end. -/
  | openComment (position : Nat)
  deriving DecidableEq, Repr

/-- The pieces of a text up to where the segmentation ended. -/
structure Segmentation where
  /-- The pieces in order. -/
  pieces : List Piece
  /-- How it ended. -/
  ending : Ending
  deriving DecidableEq, Repr

/-- The segmentation with one more piece in front. -/
def Segmentation.cons (p : Piece) (s : Segmentation) : Segmentation :=
  { s with pieces := p :: s.pieces }

/-- A segment that is being read. -/
structure Reading where
  /-- The offset of its first character. -/
  start : Nat
  /-- The documentation comment in front of it. -/
  doc : Option Text
  /-- The closing brackets that were ignored so far, the last one first. -/
  ignored : List (Char × Nat)
  deriving DecidableEq, Repr

/-- The segment up to the offset `stop`. -/
def Reading.close (r : Reading) (text : Text) (stop : Nat) : Piece :=
  .segment
    { start := r.start
      text := Text.slice text r.start stop
      doc := r.doc
      ignored := r.ignored.reverse }

/-- The documentation comment that a block comment is, if it is one. -/
def docOf (comment : Text) : Option Text :=
  if "/**".toList.isPrefixOf comment && comment != "/**/".toList then some comment else none

/-- The end of the segment that began at `start`, if the character `c`, read at `position` outside
every bracket with the next unit at `next`, ends it. -/
def Layout.stop? (l : Layout) (text : Text) (start position next : Nat) (c : Char) : Option Nat :=
  if c == ';' then some next
  else if l.endsAtBrace && c == '}' then
    if continues (text.drop next) then none else some next
  else if c == '\n' then
    if endsBefore (Text.slice text start position) (text.drop (position + 1)) then some position
    else none
  else none

/-- The pieces of `rest`, which begins at `position` of `text` behind `past` in reverse.  `current`
is the segment being read, if there is one; else `pending` is the documentation comment that the
next one gets, and `leading` says whether none was read before. -/
def segmentsFrom (l : Layout) (text : Text) (s : State) (current : Option Reading)
    (pending : Option Text) (leading : Bool) (past rest : Text) (position : Nat) : Segmentation :=
  match rest with
  | [] =>
    { pieces := (current.map fun r => r.close text text.length).toList, ending := .finished s }
  | c :: r =>
    if current.isNone && (Text.isBlank c || l.separators.contains c) then
      segmentsFrom l text s none pending leading (c :: past) r (position + 1)
    else if current.isNone && "//".toList.isPrefixOf (c :: r) then
      -- a documentation comment in front of a line comment is nobody's
      let line := c :: r.takeWhile (· != '\n')
      let others := segmentsFrom l text s none none leading (line.reverse ++ past)
        ((c :: r).drop line.length) (position + line.length)
      if leading then others.cons (.header (Text.stripRight line)) else others
    else if current.isNone && "/*".toList.isPrefixOf (c :: r) then
      -- the star of the opening delimiter is not one of the closing delimiter
      match Text.find? (r.drop 1) "*/".toList with
      | none => { pieces := [], ending := .openComment position }
      | some n =>
        let comment := (c :: r).take (n + 4)
        segmentsFrom l text s none (docOf comment) leading (comment.reverse ++ past)
          ((c :: r).drop (n + 4)) (position + (n + 4))
    else
      let reading := current.getD { start := position, doc := pending, ignored := [] }
      match _h : s.step past c r position with
      | .error f => { pieces := [], ending := .faulty f }
      | .ok (k, s') =>
        let reading :=
          if s'.clamped = s.clamped then reading
          else { reading with ignored := (c, position) :: reading.ignored }
        let past' := advancePast past (c :: r) k
        let rest' := (c :: r).drop k
        -- the unit is the end of the piece only if it was read in code and leaves no bracket open
        let stop :=
          if s.context == .normal && s'.atTopLevel then
            l.stop? text reading.start position (position + k) c
          else none
        match stop with
        | some stop =>
          (segmentsFrom l text s' none none false past' rest' (position + k)).cons
            (reading.close text stop)
        | none => segmentsFrom l text s' (some reading) none false past' rest' (position + k)
termination_by s.weight rest.length
decreasing_by
  · have := State.weight_sub_lt s (k := 1) (n := r.length + 1) (by omega) (by omega)
    simp only [Nat.add_sub_cancel] at this
    simp only [List.length_cons]
    omega
  · have := State.weight_sub_lt s (k := (r.takeWhile (· != '\n')).length + 1) (n := r.length + 1)
      (by omega) (by omega)
    simp only [List.length_drop, List.length_cons]
    omega
  · have := State.weight_sub_lt s (k := n + 4) (n := r.length + 1) (by omega) (by omega)
    simp only [List.length_drop, List.length_cons]
    omega
  · exact State.weight_step_lt _h
  · exact State.weight_step_lt _h

/-- The pieces of a text. -/
def segments (l : Layout) (text : Text) : Segmentation :=
  segmentsFrom l text {} none none true [] text 0

/-- The fault that a segmentation ended with.  At the end of the text everything must be closed. -/
def Ending.fault? : Ending → Option Fault
  | .finished s => s.finish.2
  | .faulty f => some f
  | .openComment position => some ⟨.unterminatedComment, position⟩

end ModuleSurface.Statement

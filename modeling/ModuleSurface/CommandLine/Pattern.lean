import ModuleSurface.Text.Basic

/-!
# Path patterns

A pattern selects paths by their segments: a star stands for a part of a segment, two stars for any
number of directories, and a pattern that names a directory selects everything below it.  A pattern
may be anchored by a slash at its start, restricted to directories by a slash at its end, and turned
around by an exclamation mark.  In a list of patterns the last one that matches decides.

These are the `gitwildmatch` patterns of the package `pathspec`, which is no part of the program:
the module stands for what the package does with the lists of patterns that the command line hands
to it.  A search takes any `Selection`, and patterns make one of them.
-/

namespace ModuleSurface.Files

/-! ## Globs -/

/-- A piece of a glob for one segment. -/
inductive GlobItem where
  /-- Any characters of the segment. -/
  | star
  /-- One character of the segment. -/
  | one
  /-- The character itself. -/
  | char (c : Char)
  /-- A character inside, or outside, of the ranges. -/
  | oneOf (negated : Bool) (ranges : List (Char × Char))
  deriving DecidableEq, Repr

/-- Why a text is no pattern. -/
inductive PatternFault where
  /-- It names no segment. -/
  | noSegment
  /-- It ends with a backslash that escapes nothing. -/
  | danglingEscape
  /-- A range of a character class ends before it begins. -/
  | reversedRange
  deriving DecidableEq, Repr

/-- The ranges of a character class. -/
def classRanges : Text → List (Char × Char)
  | [] => []
  | [a] => [(a, a)]
  | [a, b] => [(a, a), (b, b)]
  | a :: b :: c :: t =>
    if b == '-' then (a, c) :: classRanges t else (a, a) :: classRanges (b :: c :: t)

/-- Does the item have a range that ends before it begins? -/
def GlobItem.isReversed : GlobItem → Bool
  | oneOf _ ranges => ranges.any fun r => decide (r.2 < r.1)
  | _ => false

/-- A character class behind its opening bracket: the item, and the number of characters up to and
with the closing bracket.  A closing bracket at the start is a member. -/
def class? (t : Text) : Option (GlobItem × Nat) :=
  let negated := t.head? == some '!' || t.head? == some '^'
  let skipped := if negated then 1 else 0
  let members := t.drop skipped
  let first := if members.head? == some ']' then 1 else 0
  match (members.drop first).idxOf? ']' with
  | none => none
  | some n =>
    some (.oneOf negated (classRanges (members.take (first + n))), skipped + first + n + 1)

/-- Why a segment is no glob. -/
inductive GlobFault where
  /-- A character class is not closed. -/
  | openClass
  /-- The segment ends with a backslash that escapes nothing. -/
  | danglingEscape
  deriving DecidableEq, Repr

/-- The glob of a segment. -/
def readGlob (t : Text) : Except GlobFault (List GlobItem) :=
  match t with
  | [] => .ok []
  | c :: rest =>
    if c == '\\' then
      match rest with
      | [] => .error .danglingEscape
      | d :: rest => (readGlob rest).map (.char d :: ·)
    else if c == '*' then (readGlob rest).map (.star :: ·)
    else if c == '?' then (readGlob rest).map (.one :: ·)
    else if c == '[' then
      match class? rest with
      | none => .error .openClass
      | some (item, n) => (readGlob (rest.drop n)).map (item :: ·)
    else (readGlob rest).map (.char c :: ·)
termination_by t.length

/-- Does a glob match the start of a text so that `next` holds of what follows? -/
def matchGlob (items : List GlobItem) (next : Text → Bool) (t : Text) : Bool :=
  match items, t with
  | [], t => next t
  | .star :: items, [] => matchGlob items next []
  | .star :: items, c :: t =>
    matchGlob items next (c :: t) || (c != '/' && matchGlob (.star :: items) next t)
  | _ :: _, [] => false
  | .one :: items, c :: t => c != '/' && matchGlob items next t
  | .char d :: items, c :: t => c == d && matchGlob items next t
  | .oneOf negated ranges :: items, c :: t =>
    (ranges.any fun r => decide (r.1 ≤ c) && decide (c ≤ r.2)) != negated && matchGlob items next t
termination_by items.length + t.length

/-! ## Segments -/

/-- A segment of a pattern. -/
inductive PatternSegment where
  /-- Any number of directories. -/
  | anyDirectories
  /-- Any one name. -/
  | anyName
  /-- A name that a glob matches. -/
  | named (glob : List GlobItem)
  deriving DecidableEq, Repr

/-- Does the segment have a range that ends before it begins? -/
def PatternSegment.isReversed : PatternSegment → Bool
  | named glob => glob.any GlobItem.isReversed
  | _ => false

/-- What a path must look like to be selected. -/
inductive PathShape where
  /-- Any path with something else than line ends. -/
  | anything
  /-- Any path with a slash. -/
  | inDirectory
  /-- A path along the segments. -/
  | along (segments : List PatternSegment)
  deriving DecidableEq, Repr

/-- The texts behind one or more characters of the first line. -/
def behindSome : Text → List Text
  | [] => []
  | c :: t => if c == '\n' then [] else t :: behindSome t

/-- The text behind a slash. -/
def behindSlash? : Text → Option Text
  | '/' :: t => some t
  | _ => none

/-- Does the text end here, or go on below a directory? -/
def endsName (t : Text) : Bool :=
  t.head? == some '/' || t.isEmpty || t == "\n".toList

/-- Does the text begin with the segment so that `next` holds of what follows? -/
def PatternSegment.matchName (s : PatternSegment) (next : Text → Bool) (t : Text) : Bool :=
  match s with
  | .anyName => matchGlob [.one, .star] next t
  | .named glob => matchGlob glob next t
  | .anyDirectories => false

/-- Does a text match the segments?  `slash` says whether a slash must come before the first one. -/
def matchSegments : List PatternSegment → Bool → Text → Bool
  | [], _, _ => true
  | [.anyDirectories], _, t => t.head? == some '/'
  | .anyDirectories :: segments, _, t =>
    matchSegments segments true t ||
      ((behindSlash? t).any fun below => (behindSome below).any (matchSegments segments true))
  | s :: segments, slash, t =>
    let next := if segments.isEmpty then endsName else matchSegments segments true
    if slash then (behindSlash? t).any (s.matchName next) else s.matchName next t

/-- Does a path have the shape? -/
def PathShape.fits (shape : PathShape) (path : Text) : Bool :=
  match shape with
  | .anything => path.any (· != '\n')
  | .inDirectory => path.contains '/'
  | .along (.anyDirectories :: segments) =>
    matchSegments segments false path ||
      ((behindSome path).filterMap behindSlash?).any (matchSegments segments false)
  | .along segments => matchSegments segments false path

/-! ## Patterns -/

/-- A pattern: the shape of the paths it is about, and whether it selects or drops them. -/
structure Pattern where
  /-- Does the pattern drop what it matches? -/
  negated : Bool
  /-- The shape of the paths. -/
  shape : PathShape
  deriving DecidableEq, Repr

/-- The segments with repeated double stars merged. -/
def mergeStars : List Text → List Text
  | a :: b :: ts =>
    if a == "**".toList && b == "**".toList then mergeStars (b :: ts) else a :: mergeStars (b :: ts)
  | ts => ts

/-- The segments of a pattern with the double stars that its form implies: a single name may stand
in any directory, and a slash at the end asks for something below. -/
def impliedSegments (segments : List Text) : List Text :=
  let stars := "**".toList
  let anchored :=
    match segments with
    -- a slash in front binds the pattern to the directory that is searched
    | [] :: rest => rest
    | [a] => if a == stars then [a] else [stars, a]
    | [a, []] => if a == stars then [a, []] else [stars, a, []]
    | other => other
  let below := if anchored.getLast? == some [] then anchored.dropLast ++ [stars] else anchored
  mergeStars below

/-- The segment that a text stands for. -/
def readSegment (t : Text) : Except GlobFault PatternSegment :=
  if t == "**".toList then .ok .anyDirectories
  else if t == "*".toList then .ok .anyName
  else (readGlob t).map .named

/-- The shape for a list of segments; none if a character class is not closed. -/
def shapeOf (isDirectory : Bool) (segments : List Text) : Except PatternFault (Option PathShape) :=
  if segments == ["**".toList] then .ok (some (if isDirectory then .inDirectory else .anything))
  else if segments == ["**".toList, "*".toList] then .ok (some .anything)
  else if segments == ["**".toList, "*".toList, "**".toList] then .ok (some .inDirectory)
  else
    match segments.mapM readSegment with
    | .ok segments =>
      if segments.any PatternSegment.isReversed then .error .reversedRange
      else .ok (some (.along segments))
    | .error .openClass => .ok none
    | .error .danglingEscape => .error .danglingEscape

/-- The pattern that a line stands for.  Blank lines, comments, a single slash and a line with an
open character class stand for none. -/
def Pattern.parse (line : Text) : Except PatternFault (Option Pattern) :=
  let text := if "\\ ".toList.isSuffixOf line then line else Text.stripRight line
  if text.isEmpty || text.head? == some '#' || text == "/".toList then .ok none
  else
    let negated := text.head? == some '!'
    let text := if negated then text.drop 1 else text
    let segments := impliedSegments (text.splitOn '/')
    if segments.isEmpty then .error .noSegment
    else
      (shapeOf (text.getLast? == some '/') segments).map fun shape =>
        shape.map fun shape => { negated := negated, shape := shape }

/-! ## Lists of patterns -/

/-- The patterns of a list of lines. -/
def parsePatterns (lines : List Text) : Except PatternFault (List Pattern) :=
  (lines.mapM Pattern.parse).map fun ps => ps.filterMap id

/-- The path as patterns see it: without a slash, or a dot and a slash, in front. -/
def patternPath (path : Text) : Text :=
  ((Text.after? "/".toList path).or (Text.after? "./".toList path)).getD path

/-- Does a list of patterns select a path?  The last pattern that matches decides. -/
def selects (patterns : List Pattern) (path : Text) : Bool :=
  let path := patternPath path
  match (patterns.filter fun p => p.shape.fits path).getLast? with
  | some p => !p.negated
  | none => false

end ModuleSurface.Files

import ModuleSurface.Text.Basic

/-!
# Paths

A path is a root and a list of parts.  Repeated slashes, single dots and a slash at the end do not
matter, double dots are kept.  Two slashes at the start are a root of their own, one or more than
two are the usual root.
-/

namespace ModuleSurface.Files

/-- A path of a file or a directory. -/
structure FilePath where
  /-- The slashes in front: none, one or two. -/
  root : Text := []
  /-- The parts between slashes. -/
  parts : List Text
  deriving DecidableEq, Repr

namespace FilePath

/-- The part that leads one directory up. -/
def up : Text :=
  "..".toList

/-- The path that a text names. -/
def parse (t : Text) : FilePath where
  root :=
    match (t.takeWhile (· == '/')).length with
    | 0 => []
    | 2 => "//".toList
    | _ => "/".toList
  parts := (t.splitOn '/').filter fun part => !part.isEmpty && part != ".".toList

/-- The text of a path.  The empty path is a dot. -/
def text (p : FilePath) : Text :=
  if p.root.isEmpty && p.parts.isEmpty then ".".toList
  else p.root ++ Text.join "/".toList p.parts

/-- Does the path begin at the root? -/
def isAbsolute (p : FilePath) : Bool :=
  !p.root.isEmpty

/-- The second path seen from the first; an absolute one replaces it. -/
def append (p q : FilePath) : FilePath :=
  if q.isAbsolute then q else { p with parts := p.parts ++ q.parts }

/-- The last part, or nothing. -/
def name (p : FilePath) : Text :=
  p.parts.getLast?.getD []

/-- The path without its last part. -/
def parent (p : FilePath) : FilePath :=
  { p with parts := p.parts.dropLast }

/-- The offset of the dot that begins the suffix of a name.  A dot at either end begins none. -/
def suffixStart? (name : Text) : Option Nat :=
  match name.reverse.idxOf? '.' with
  | none => none
  | some n =>
    let i := name.length - 1 - n
    if 0 < i && decide (i < name.length - 1) then some i else none

/-- The name without its suffix. -/
def stem (p : FilePath) : Text :=
  match suffixStart? p.name with
  | some i => p.name.take i
  | none => p.name

/-- The suffix of the name with its dot, or nothing. -/
def suffix (p : FilePath) : Text :=
  match suffixStart? p.name with
  | some i => p.name.drop i
  | none => []

/-! ### Limits -/

/-- The greatest number of bytes of a part. -/
def partLimit : Nat := 255

/-- The greatest number of bytes of a path. -/
def limit : Nat := 4095

/-- The number of bytes of a text. -/
def byteLength (t : Text) : Nat :=
  (String.ofList t).utf8ByteSize

/-- Is the path too long? -/
def isOverlong (p : FilePath) : Bool :=
  decide (limit < byteLength p.text)

/-- Is a part too long? -/
def isOverlongPart (part : Text) : Bool :=
  decide (partLimit < byteLength part)

/-- Does a part have the character that no path may have? -/
def isUnnameable (p : FilePath) : Bool :=
  p.parts.any fun part => part.contains '\x00'

end FilePath

/-! ## Declaration files -/

/-- How declaration files are laid out. -/
inductive OutputLayout where
  /-- As the sources are. -/
  | nested
  /-- All in one directory. -/
  | flat
  deriving DecidableEq, Repr

/-- The suffixes of sources and of their declaration files. -/
def declarationSuffixes : List (Text × Text) :=
  [(".ts", ".d.ts"), (".tsx", ".d.ts"), (".mts", ".d.mts"), (".cts", ".d.cts")].map fun p =>
    (p.1.toList, p.2.toList)

/-- The path of the declaration file for a source. -/
def declarationPath (source : Text) (outdir : FilePath) (layout : OutputLayout) : FilePath :=
  let path := FilePath.parse source
  let suffix := (declarationSuffixes.lookup path.suffix).getD ".d.ts".toList
  let file : FilePath := { parts := [path.stem ++ suffix] }
  match layout with
  | .flat => outdir.append file
  | .nested => (outdir.append path.parent).append file

end ModuleSurface.Files

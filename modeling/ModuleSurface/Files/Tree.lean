import ModuleSurface.Files.Path
import ModuleSurface.Named
import ModuleSurface.Text.Lines

/-!
# File systems

A file system is a tree of directories and files together with a working directory.  Paths are
walked part by part; double dots lead one directory up, and every part but the last must be a
directory.
-/

namespace ModuleSurface.Files

/-- A file or a directory. -/
inductive Node where
  /-- A file with its bytes. -/
  | file (content : List UInt8)
  /-- A directory with the nodes in it by name. -/
  | dir (entries : List (Text × Node))
  deriving Repr

namespace Node

/-- The node at a path of names. -/
def get? : Node → List Text → Option Node
  | n, [] => some n
  | dir entries, name :: path => (entries.lookup name).bind fun n => n.get? path
  | file _, _ :: _ => none

/-- The tree with a node at a path of names, or without one.  The directories on the way must be
there; else nothing changes. -/
def set (value : Option Node) : List Text → Node → Node
  | [], n => value.getD n
  | name :: path, dir entries =>
    match path, value with
    | [], none => dir (entries.filter fun e => e.1 != name)
    | [], some v => dir (Named.put name v entries)
    | _ :: _, _ =>
      match entries.lookup name with
      | some n => dir (Named.put name (set value path n) entries)
      | none => dir entries
  | _ :: _, file content => file content

/-- Is the node a directory? -/
def isDir : Node → Bool
  | dir _ => true
  | file _ => false

mutual

/-- The files of a tree with their paths of names. -/
def files : Node → List (List Text × List UInt8)
  | file content => [([], content)]
  | dir entries => filesIn entries

/-- The files of the entries of a directory with their paths of names. -/
def filesIn : List (Text × Node) → List (List Text × List UInt8)
  | [] => []
  | (name, n) :: entries => (n.files.map fun f => (name :: f.1, f.2)) ++ filesIn entries

end

end Node

/-! ## Text in files -/

/-- The bytes of a text. -/
def encodeText (t : Text) : List UInt8 :=
  (String.ofList t).toUTF8.toList

/-- The text that bytes encode, if they encode one. -/
def decodeBytes? (bytes : List UInt8) : Option Text :=
  (String.fromUTF8? (ByteArray.mk bytes.toArray)).map String.toList

/-! ## File systems -/

/-- A tree of files with a working directory. -/
structure FileSystem where
  /-- The tree. -/
  tree : Node
  /-- The path of the working directory. -/
  workingDir : List Text
  /-- The home directories by the names of their users.  The user at work has the empty name. -/
  homes : Named FilePath := []
  deriving Repr

/-- The file system does not allow what was asked. -/
inductive FileFault where
  /-- A part of a path is no directory, or a file is expected where a directory is. -/
  | wrongKind
  /-- The directory cannot be removed by this path. -/
  | notRemovable
  /-- The path, or a part of it, is too long. -/
  | tooLong
  /-- The path has a character that no path may have. -/
  | unnameable
  deriving DecidableEq, Repr

namespace FileSystem

/-- The names that a path starts from. -/
def start (fs : FileSystem) (p : FilePath) : List Text :=
  if p.isAbsolute then [] else fs.workingDir

/-- Is there a directory at the names? -/
def isDirAt (fs : FileSystem) (names : List Text) : Bool :=
  (fs.tree.get? names).any (·.isDir)

/-- The names one part further, if what stands there exists. -/
def follow? (fs : FileSystem) (names : List Text) (part : Text) : Option (List Text) :=
  if !fs.isDirAt names then none
  else if part == FilePath.up then some names.dropLast
  else if (fs.tree.get? (names ++ [part])).isSome then some (names ++ [part])
  else none

/-- The names of what stands at a path, if it exists. -/
def locate? (fs : FileSystem) (p : FilePath) : Option (List Text) :=
  p.parts.foldlM fs.follow? (fs.start p)

/-- Is there a directory at a path? -/
def isDir (fs : FileSystem) (p : FilePath) : Bool :=
  (fs.locate? p).any fs.isDirAt

/-- Is there a file at a path? -/
def isFile (fs : FileSystem) (p : FilePath) : Bool :=
  (fs.locate? p).any fun names => !fs.isDirAt names

/-- Does a walk along the parts, from the names on, come to a part that is too long? -/
def meetsOverlongPart (fs : FileSystem) : List Text → List Text → Bool
  | _, [] => false
  | names, part :: parts =>
    fs.isDirAt names && (FilePath.isOverlongPart part ||
      ((fs.follow? names part).any fun names => fs.meetsOverlongPart names parts))

/-- Is it impossible to say whether anything stands at the path, because the path is too long? -/
def isOutOfReach (fs : FileSystem) (p : FilePath) : Bool :=
  !p.isUnnameable && (p.isOverlong || fs.meetsOverlongPart (fs.start p) p.parts)

/-- The names of a path when double dots take away the part before them, whether or not anything
stands there. -/
def resolve (fs : FileSystem) (p : FilePath) : List Text :=
  p.parts.foldl (fun names part => if part == FilePath.up then names.dropLast else names ++ [part])
    (fs.start p)

/-- The file system with a node at the names, or without one. -/
def set (fs : FileSystem) (names : List Text) (value : Option Node) : FileSystem :=
  { fs with tree := fs.tree.set value names }

/-- The directory one part further, made if it is missing. -/
def makeStep (reached : FileSystem × Except FileFault (List Text)) (part : Text) :
    FileSystem × Except FileFault (List Text) :=
  match reached with
  | (fs, .error f) => (fs, .error f)
  | (fs, .ok names) =>
    if part == FilePath.up then (fs, .ok names.dropLast)
    else if FilePath.isOverlongPart part then (fs, .error .tooLong)
    else
      match fs.tree.get? (names ++ [part]) with
      | some (.dir _) => (fs, .ok (names ++ [part]))
      | some (.file _) => (fs, .error .wrongKind)
      | none =>
        if fs.isDirAt names then (fs.set (names ++ [part]) (some (.dir [])), .ok (names ++ [part]))
        else (fs, .error .wrongKind)

/-- The directory at a path, with all directories on the way made if they are missing. -/
def makeDirs (fs : FileSystem) (p : FilePath) : FileSystem × Except FileFault (List Text) :=
  if p.isUnnameable then (fs, .error .unnameable)
  else if p.isOverlong then (fs, .error .tooLong)
  else p.parts.foldl makeStep (fs, .ok (fs.start p))

/-- The file system with a file at a path, in directories that are made if they are missing. -/
def writeFile (fs : FileSystem) (p : FilePath) (content : List UInt8) :
    FileSystem × Except FileFault Unit :=
  match fs.makeDirs p.parent with
  | (fs, .error f) => (fs, .error f)
  | (fs, .ok names) =>
    let target := names ++ [p.name]
    if p.isUnnameable then (fs, .error .unnameable)
    else if p.isOverlong || FilePath.isOverlongPart p.name then (fs, .error .tooLong)
    else if fs.isDirAt target || !fs.isDirAt names then (fs, .error .wrongKind)
    else (fs.set target (some (.file content)), .ok ())

/-- The file system without the directory at a path and everything below it; nothing changes if
nothing stands there.  A directory that is named by a dot or by double dots is emptied but cannot be
removed. -/
def removeDir (fs : FileSystem) (p : FilePath) : FileSystem × Except FileFault Unit :=
  match fs.locate? p with
  | none => (fs, if fs.isOutOfReach p then .error .tooLong else .ok ())
  | some names =>
    if !fs.isDirAt names then (fs, .error .wrongKind)
    else if p.parts.isEmpty || p.name == FilePath.up then
      (fs.set names (some (.dir [])), .error .notRemovable)
    else (fs.set names none, .ok ())

/-- The file system with one more file, or with a directory if the path ends with a slash. -/
def supply (fs : FileSystem) (path : Text) (content : List UInt8) : FileSystem :=
  if path.getLast? == some '/' then (fs.makeDirs (FilePath.parse path)).1
  else (fs.writeFile (FilePath.parse path) content).1

/-- The file system that has nothing but the given files and directories, whose paths start from the
working directory. -/
def ofFiles (workingDir : List Text) (files : List (Text × List UInt8)) : FileSystem :=
  let root : FileSystem := { tree := .dir [], workingDir := [] }
  let empty := (root.makeDirs { parts := workingDir }).1
  files.foldl (fun fs f => fs.supply f.1 f.2) { empty with workingDir := workingDir }

/-- The files of the whole tree by their paths. -/
def allFiles (fs : FileSystem) : List (Text × List UInt8) :=
  fs.tree.files.map fun f => ('/' :: Text.join "/".toList f.1, f.2)

/-- The files below the working directory by their paths, in order. -/
def listing (fs : FileSystem) : List (Text × List UInt8) :=
  let below := ((fs.tree.get? fs.workingDir).map Node.files).getD []
  below.map fun f => (Text.join "/".toList f.1, f.2)

end FileSystem

end ModuleSurface.Files

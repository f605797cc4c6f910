import ModuleSurface.Files.Tree
import ModuleSurface.Text.Identifier

/-!
# Finding sources

The files below a directory that a selection includes and does not exclude.  A directory that is
excluded is not entered, so nothing below it is found whatever the selection says about it.  The
directories that are entered wait on a stack for their turn.
-/

namespace ModuleSurface.Files

/-- Which files are wanted: predicates on paths relative to the directory that is searched.  The
path of a directory ends with a slash. -/
structure Selection where
  /-- Is the file selected? -/
  includes : Text → Bool
  /-- Is the file or the directory excluded? -/
  excludes : Text → Bool

/-- The path of an entry of a directory, where the directory searched has the empty path. -/
def childPath (dir name : Text) : Text :=
  if dir.isEmpty then name else dir ++ "/".toList ++ name

/-- How far a search has come. -/
structure SearchProgress where
  /-- The paths of the wanted files met so far. -/
  found : List Text
  /-- The directories still to be read with their entries, the next one first. -/
  pending : List (Text × List (Text × Node))

namespace SearchProgress

/-- The progress once an entry of the directory `dir` is looked at: a directory is put off until it
is its turn, unless it is excluded. -/
def look (s : Selection) (dir : Text) (p : SearchProgress) : Text × Node → SearchProgress
  | (name, .dir entries) =>
    let path := childPath dir name
    if s.excludes (path ++ "/".toList) then p
    else { p with pending := (path, entries) :: p.pending }
  | (name, .file _) =>
    let path := childPath dir name
    if s.excludes path then p
    else if s.includes path then { p with found := p.found ++ [path] }
    else p

/-- The progress once all entries of the directory `dir` are looked at. -/
def read (s : Selection) (dir : Text) (entries : List (Text × Node)) (p : SearchProgress) :
    SearchProgress :=
  entries.foldl (look s dir) p

/-- The size of what is still to be read. -/
noncomputable def pendingSize (p : SearchProgress) : Nat :=
  p.pending.foldr (fun d size => sizeOf d.2 + size) 0

theorem pendingSize_look_le (s : Selection) (dir : Text) (p : SearchProgress) (e : Text × Node) :
    (p.look s dir e).pendingSize ≤ p.pendingSize + sizeOf e := by
  obtain ⟨name, _ | entries⟩ := e
  · simp only [look]
    split
    · exact Nat.le_add_right _ _
    · split <;> exact Nat.le_add_right _ _
  · simp only [look]
    split
    · exact Nat.le_add_right _ _
    · simp only [pendingSize, List.foldr_cons, Prod.mk.sizeOf_spec,
        Node.dir.sizeOf_spec]
      omega

/-- What the entries of a directory put off is less than the entries. -/
theorem pendingSize_read_lt (s : Selection) (dir : Text) (entries : List (Text × Node))
    (p : SearchProgress) :
    (p.read s dir entries).pendingSize < p.pendingSize + sizeOf entries := by
  induction entries generalizing p with
  | nil => simp [read]
  | cons e entries ih =>
    have hrest : ((p.look s dir e).read s dir entries).pendingSize <
        (p.look s dir e).pendingSize + sizeOf entries := ih _
    have hfirst := pendingSize_look_le s dir p e
    simp only [List.cons.sizeOf_spec]
    exact Nat.lt_of_lt_of_le hrest (by omega)

/-- The wanted files once no directory is left to be read. -/
def run (s : Selection) : SearchProgress → List Text
  | ⟨found, []⟩ => found
  | ⟨found, (dir, entries) :: pending⟩ => run s (read s dir entries ⟨found, pending⟩)
termination_by p => p.pendingSize
decreasing_by
  refine Nat.lt_of_lt_of_le (pendingSize_read_lt s dir entries ⟨found, pending⟩) ?_
  simp only [pendingSize, List.foldr_cons]
  omega

end SearchProgress

/-- The sources found below a directory. -/
structure Search where
  /-- The paths of the sources relative to the directory, in order. -/
  found : List Text
  /-- The directories that could not be read. -/
  unreadable : Nat
  deriving DecidableEq, Repr

/-- The wanted files below the directory at a path, in order.  If there is no such directory, it is
reported as unreadable. -/
def FileSystem.search (fs : FileSystem) (root : FilePath) (s : Selection) : Search :=
  match fs.tree.get? (fs.resolve root) with
  | some (.dir entries) =>
    { found := Text.sort (SearchProgress.run s ⟨[], [([], entries)]⟩), unreadable := 0 }
  | _ => { found := [], unreadable := 1 }

/-- A source with its text. -/
structure Source where
  /-- The path relative to the directory that was searched. -/
  file : Text
  /-- The text. -/
  text : Text
  deriving DecidableEq, Repr

end ModuleSurface.Files

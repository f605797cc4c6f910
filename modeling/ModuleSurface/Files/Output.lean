import ModuleSurface.Files.Sources
import ModuleSurface.Surface.Build

/-!
# Writing declaration files

Declaration files are made for each source on its own, and the ones that could be made are written
below an output directory.  If two sources have the same declaration file, the later one wins and
the overwriting is reported.
-/

namespace ModuleSurface.Files

/-- How the making of a declaration file ended. -/
inductive GenerationStatus where
  /-- The declaration file was made. -/
  | generated
  /-- The source failed. -/
  | failed
  deriving DecidableEq, Repr

/-- What became of a source. -/
structure Generated where
  /-- The path of the source. -/
  file : Text
  /-- How it ended. -/
  status : GenerationStatus
  /-- The text of the declaration file, if there is one. -/
  output? : Option Text := none
  /-- The error message, if there is one. -/
  error? : Option Text := none
  deriving DecidableEq, Repr

/-- The text to be written for a source, if its declaration file was made. -/
def Generated.written? (g : Generated) : Option Text :=
  if g.status == .generated then g.output? else none

/-- The declaration file of a source. -/
def generate (options : SurfaceOptions) (source : Source) : Generated :=
  match surface options source.file source.text with
  | .ok text => { file := source.file, status := .generated, output? := some text }
  | .error e => { file := source.file, status := .failed, error? := some e.message }

/-- There is work to do and nobody to do it. -/
inductive WorkerFault where
  /-- The number of workers is not positive. -/
  | noWorkers
  deriving DecidableEq, Repr

/-- The declaration files of sources, in their order.  A source that fails does not affect the
others. -/
def generateAll (options : SurfaceOptions) (workers : Option Int) (sources : List Source) :
    Except WorkerFault (List Generated) :=
  if !sources.isEmpty && workers.any (· ≤ 0) then .error .noWorkers
  else .ok (sources.map (generate options))

/-- What was written. -/
structure WriteReport where
  /-- The files in the order they were written. -/
  written : List FilePath := []
  /-- The files that were written again, with the source they were written for. -/
  overwrites : List (FilePath × Text) := []
  deriving DecidableEq, Repr

/-- The file system and the report after one more declaration file. -/
def writeOne (outdir : FilePath) (layout : OutputLayout)
    (state : FileSystem × Except FileFault WriteReport) (g : Generated) :
    FileSystem × Except FileFault WriteReport :=
  match state, g.written? with
  | (fs, .ok report), some text =>
    let target := declarationPath g.file outdir layout
    let overwrites :=
      if report.written.contains target then report.overwrites ++ [(target, g.file)]
      else report.overwrites
    match fs.writeFile target (encodeText text) with
    | (fs, .ok ()) => (fs, .ok { written := report.written ++ [target], overwrites := overwrites })
    | (fs, .error f) => (fs, .error f)
  | state, _ => state

/-- The file system after the declaration files were written below a directory, and what was
written.  With `clean` the directory is removed first. -/
def writeAll (fs : FileSystem) (outdir : FilePath) (layout : OutputLayout) (clean : Bool)
    (results : List Generated) : FileSystem × Except FileFault WriteReport :=
  match if clean then fs.removeDir outdir else (fs, .ok ()) with
  | (fs, .error f) => (fs, .error f)
  | (fs, .ok ()) => results.foldl (writeOne outdir layout) (fs, .ok {})

/-! ## What has changed -/

/-- The differences between a listing of files and an earlier one. -/
structure Changes where
  /-- The files that are new or have other bytes, in order. -/
  changed : List (Text × List UInt8)
  /-- The files that are gone, in order. -/
  removed : List Text
  deriving DecidableEq, Repr

/-- The order of listings. -/
def byPath (a b : Text × List UInt8) : Bool :=
  Text.le a.1 b.1

/-- The differences of a listing from an earlier one. -/
def changes (earlier later : List (Text × List UInt8)) : Changes where
  changed := (later.filter fun f => earlier.lookup f.1 != some f.2).mergeSort byPath
  removed := Text.sort ((earlier.map (·.1)).filter fun p => (later.lookup p).isNone)

end ModuleSurface.Files

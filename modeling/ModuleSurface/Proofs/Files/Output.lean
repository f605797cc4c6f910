import Mathlib.Data.List.Induction
import ModuleSurface.Files.Output
import ModuleSurface.Proofs.Files.Operations

/-!
# What is written

The declaration files that could be made are written one after the other below an output directory.

* `resolve_target`: where the declaration file of a source is, and `target_eq_of_resolve_eq`: two of
  them are at one place only if they have one path;
* `Written`: what the file system is like when some declaration files have been written.  One more
  keeps it so (`Written.step`), and so does a whole list of sources (`foldl_writeOne_ok`);
* `writeAll_ok`: what is there in the end, and what is reported.
-/

namespace ModuleSurface.Files

open FileSystem

/-! ## Where declaration files are -/

/-- Is the path of a source relative, and does it never lead upwards? -/
def isPlainPath (source : Text) : Bool :=
  !(FilePath.parse source).isAbsolute && !(FilePath.parse source).parts.contains FilePath.up

/-- The parts of the path of a declaration file below the output directory. -/
def declarationParts (source : Text) (layout : OutputLayout) : List Text :=
  let path := FilePath.parse source
  let directories :=
    match layout with
    | .flat => []
    | .nested => path.parent.parts
  directories ++ [path.stem ++ (declarationSuffixes.lookup path.suffix).getD ".d.ts".toList]

theorem declarationPath_eq {source : Text} (h : isPlainPath source = true) (outdir : FilePath)
    (layout : OutputLayout) :
    declarationPath source outdir layout =
      { outdir with parts := outdir.parts ++ declarationParts source layout } := by
  have hroot : (FilePath.parse source).parent.isAbsolute = false := by
    simp only [isPlainPath, Bool.and_eq_true, Bool.not_eq_true'] at h
    exact h.1
  cases layout with
  | flat => rfl
  | nested =>
    simp only [declarationPath, FilePath.append, hroot]
    simp [declarationParts, FilePath.isAbsolute]

/-- The name of a declaration file is not double dots. -/
theorem declarationName_ne_up (stem suffix : Text) :
    stem ++ (declarationSuffixes.lookup suffix).getD ".d.ts".toList ≠ FilePath.up := by
  have hlong : 5 ≤ ((declarationSuffixes.lookup suffix).getD ".d.ts".toList).length := by
    cases hlookup : declarationSuffixes.lookup suffix with
    | none => decide
    | some found =>
      obtain ⟨before, after, hsplit, -⟩ := List.lookup_eq_some_iff.1 hlookup
      have hmem : (suffix, found) ∈ declarationSuffixes := by simp [hsplit]
      have hall : ∀ e ∈ declarationSuffixes, 5 ≤ e.2.length := by decide
      exact hall _ hmem
  intro heq
  have hlength := congrArg List.length heq
  rw [List.length_append] at hlength
  have hup : FilePath.up.length = 2 := rfl
  omega

theorem up_not_mem_declarationParts {source : Text} (h : isPlainPath source = true)
    (layout : OutputLayout) : FilePath.up ∉ declarationParts source layout := by
  have hparts : FilePath.up ∉ (FilePath.parse source).parts := by
    simp only [isPlainPath, Bool.and_eq_true, Bool.not_eq_true'] at h
    simpa using h.2
  have hname := declarationName_ne_up (FilePath.parse source).stem (FilePath.parse source).suffix
  cases layout with
  | flat => simpa [declarationParts] using Ne.symm hname
  | nested =>
    rw [declarationParts, List.mem_append, not_or]
    refine ⟨fun hmem => hparts (List.dropLast_subset _ hmem), ?_⟩
    simpa using Ne.symm hname

variable {fs fs' fs'' : FileSystem} {outdir : FilePath} {layout : OutputLayout}
  {source source' : Text}

theorem resolve_target (h : isPlainPath source = true) :
    fs.resolve (declarationPath source outdir layout) =
      fs.resolve outdir ++ declarationParts source layout := by
  rw [declarationPath_eq h, resolve_eq_walk, walk_append,
    walk_of_not_mem _ (up_not_mem_declarationParts h layout)]
  rfl

/-- Declaration files with different paths are at different places. -/
theorem target_eq_of_resolve_eq (h : isPlainPath source = true) (h' : isPlainPath source' = true)
    (heq : fs.resolve (declarationPath source outdir layout) =
      fs.resolve (declarationPath source' outdir layout)) :
    declarationPath source outdir layout = declarationPath source' outdir layout := by
  rw [resolve_target h, resolve_target h'] at heq
  rw [declarationPath_eq h, declarationPath_eq h', List.append_cancel_left heq]

/-- The place of a declaration file is in the directory that its path names. -/
theorem resolve_target_eq_append (h : isPlainPath source = true) :
    fs.resolve (declarationPath source outdir layout) =
      fs.resolve (declarationPath source outdir layout).parent ++
        [(declarationPath source outdir layout).name] := by
  have hparts : declarationParts source layout ≠ [] := by simp [declarationParts]
  refine resolve_eq_append fs ?_ ?_
  · rw [declarationPath_eq h]
    exact List.append_ne_nil_of_right_ne_nil _ hparts
  · rw [declarationPath_eq h, FilePath.name, List.getLast?_append_of_ne_nil _ hparts,
      List.getLast?_eq_some_getLast hparts, Option.getD_some]
    intro heq
    exact up_not_mem_declarationParts h layout (heq ▸ List.getLast_mem hparts)

/-! ## What is written -/

/-- A declaration file that is written. -/
structure Emission where
  /-- Its path. -/
  target : FilePath
  /-- The path of the source. -/
  file : Text
  /-- Its text. -/
  text : Text
  deriving DecidableEq, Repr

/-- The declaration files that could be made, in the order of the sources. -/
def emissions (outdir : FilePath) (layout : OutputLayout) (results : List Generated) :
    List Emission :=
  results.filterMap fun g =>
    g.written?.map fun text => ⟨declarationPath g.file outdir layout, g.file, text⟩

/-- The declaration files that have the path of an earlier one, with their sources. -/
def repeats (es : List Emission) : List (FilePath × Text) :=
  (es.zipIdx.filter fun e => ((es.take e.2).map (·.target)).contains e.1.target).map fun e =>
    (e.1.target, e.1.file)

theorem repeats_append_singleton (es : List Emission) (e : Emission) :
    repeats (es ++ [e]) = repeats es ++
      if (es.map (·.target)).contains e.target then [(e.target, e.file)] else [] := by
  have hearlier : ∀ x ∈ es.zipIdx, (es ++ [e]).take x.2 = es.take x.2 := by
    intro x hx
    have hlt := (List.mem_zipIdx hx).2.1
    exact List.take_append_of_le_length (by omega)
  rw [repeats, List.zipIdx_append, List.filter_append, List.map_append]
  congr 1
  · rw [repeats]
    congr 1
    exact List.filter_congr fun x hx => by rw [hearlier x hx]
  · simp only [List.zipIdx_cons, List.zipIdx_nil, Nat.zero_add, List.filter_cons, List.filter_nil,
      List.take_left]
    split <;> rfl

/-- What the file system is like when, beginning with `fs`, the declaration files have been
written. -/
structure Written (fs : FileSystem) (es : List Emission) (fs' : FileSystem) : Prop where
  /-- The working directory is the same. -/
  workingDir : fs'.workingDir = fs.workingDir
  /-- The last one with a path stands at its place. -/
  view_target : ∀ before e after, es = before ++ e :: after →
    (∀ e' ∈ after, e'.target ≠ e.target) →
      fs'.tree.view (fs.resolve e.target) = some (some (encodeText e.text))
  /-- Everywhere else only directories are new. -/
  view_other : ∀ names, (∀ e ∈ es, fs.resolve e.target ≠ names) →
    fs'.tree.view names = fs.tree.view names ∨
      (fs.tree.view names = none ∧ fs'.tree.view names = some none ∧
        ∃ e ∈ es, fs.OnTheWay e.target names)

namespace Written

variable {es : List Emission}

theorem nil (fs : FileSystem) : Written fs [] fs where
  workingDir := rfl
  view_target := by simp
  view_other := fun _ _ => .inl rfl

/-- One more declaration file is written. -/
theorem step (h : Written fs es fs') {e : Emission} {content : List UInt8}
    (hcontent : content = encodeText e.text)
    (hplace : fs.resolve e.target = fs.resolve e.target.parent ++ [e.target.name])
    (hapart : ∀ e' ∈ es, fs.resolve e'.target = fs.resolve e.target → e'.target = e.target)
    (hwrite : fs'.writeFile e.target content = (fs'', .ok ())) : Written fs (es ++ [e]) fs'' := by
  obtain ⟨fs₁, hadds, hdir, hview⟩ := writeFile_ok hwrite
  have hresolve := resolve_congr h.workingDir
  rw [hresolve, ← hplace, hcontent] at hview
  have hway : ∀ names, fs'.OnTheWay e.target.parent names → fs.OnTheWay e.target names := by
    rintro names ⟨parts, hparts, hnames⟩
    exact ⟨parts, hparts.trans (List.dropLast_prefix _), by rw [← hnames, hresolve]; rfl⟩
  refine ⟨hdir.trans h.workingDir, ?_, ?_⟩
  · intro before first after hsplit hlast
    rcases List.eq_nil_or_concat after with rfl | ⟨others, last, rfl⟩
    · obtain ⟨-, rfl⟩ := List.append_singleton_inj.1 hsplit
      rw [hview, if_pos rfl]
    · rw [List.concat_eq_append, ← List.cons_append, ← List.append_assoc] at hsplit
      obtain ⟨hes, rfl⟩ := List.append_singleton_inj.1 hsplit
      have hbefore := h.view_target before first others hes fun e' he' => hlast e' (by simp [he'])
      have hne : fs.resolve first.target ≠ fs.resolve e.target := fun heq =>
        hlast e (by simp) (hapart first (by simp [hes]) heq).symm
      rw [hview, if_neg hne, hadds.view_eq (by rw [hbefore]; simp), hbefore]
  · intro names hnames
    have hes : ∀ e' ∈ es, fs.resolve e'.target ≠ names := fun e' he' =>
      hnames e' (List.mem_append_left _ he')
    have hne : names ≠ fs.resolve e.target := (hnames e (by simp)).symm
    rw [hview, if_neg hne]
    rcases hadds.view names with heq | ⟨hnone, hdir₁, hmade⟩
    · rw [heq]
      refine (h.view_other names hes).imp_right fun ⟨hnone, hdir', e', he', hway'⟩ => ?_
      exact ⟨hnone, hdir', e', List.mem_append_left _ he', hway'⟩
    · rcases h.view_other names hes with heq' | ⟨-, hdir', -⟩
      · exact .inr ⟨heq' ▸ hnone, hdir₁, e, by simp, hway names hmade⟩
      · rw [hdir'] at hnone
        cases hnone

end Written

/-! ## Writing a list of sources -/

variable {report report' : WriteReport} {results : List Generated}

theorem writeOne_error (f : FileFault) (g : Generated) :
    writeOne outdir layout (fs, .error f) g = (fs, .error f) := by
  cases g.written? <;> simp [writeOne]

theorem exists_of_mem_emissions {e : Emission} (h : e ∈ emissions outdir layout results) :
    ∃ g ∈ results, e.target = declarationPath g.file outdir layout := by
  obtain ⟨g, hg, he⟩ := List.mem_filterMap.1 h
  obtain ⟨text, -, rfl⟩ := Option.map_eq_some_iff.1 he
  exact ⟨g, hg, rfl⟩

theorem emissions_append (results more : List Generated) :
    emissions outdir layout (results ++ more) =
      emissions outdir layout results ++ emissions outdir layout more :=
  List.filterMap_append

/-- **The declaration files of a list of sources are written** one after the other, and each that
has the path of an earlier one is reported. -/
theorem foldl_writeOne_ok (hplain : ∀ g ∈ results, isPlainPath g.file = true)
    (h : results.foldl (writeOne outdir layout) (fs, .ok {}) = (fs', .ok report)) :
    report.written = (emissions outdir layout results).map (·.target) ∧
      report.overwrites = repeats (emissions outdir layout results) ∧
      Written fs (emissions outdir layout results) fs' := by
  induction results using List.reverseRecOn generalizing fs' report with
  | nil =>
    obtain ⟨rfl, hreport⟩ := Prod.mk.inj h
    obtain rfl := Except.ok.inj hreport
    exact ⟨rfl, rfl, .nil _⟩
  | append_singleton results g ih =>
    rw [List.foldl_append, List.foldl_cons, List.foldl_nil] at h
    rcases hrun : results.foldl (writeOne outdir layout) (fs, .ok {}) with ⟨fs₁, f | report₁⟩
    · rw [hrun, writeOne_error] at h
      cases h
    · obtain ⟨hwritten, hoverwrites, hfiles⟩ :=
        ih (fun g' hg' => hplain g' (List.mem_append_left _ hg')) hrun
      rw [hrun] at h
      rw [emissions_append]
      cases htext : g.written? with
      | none =>
        have hnone : emissions outdir layout [g] = [] := by simp [emissions, htext]
        simp only [writeOne, htext] at h
        obtain ⟨rfl, hreport⟩ := Prod.mk.inj h
        obtain rfl := Except.ok.inj hreport
        rw [hnone, List.append_nil]
        exact ⟨hwritten, hoverwrites, hfiles⟩
      | some text =>
        have hplainG : isPlainPath g.file = true := hplain g (by simp)
        have hsome : emissions outdir layout [g] =
            [⟨declarationPath g.file outdir layout, g.file, text⟩] := by simp [emissions, htext]
        rcases hwrite : fs₁.writeFile (declarationPath g.file outdir layout) (encodeText text) with
          ⟨fs₂, f | ⟨⟩⟩
        · simp [writeOne, htext, hwrite] at h
        · simp only [writeOne, htext, hwrite] at h
          obtain ⟨rfl, hreport⟩ := Prod.mk.inj h
          obtain rfl := Except.ok.inj hreport
          rw [hsome, repeats_append_singleton, List.map_append, ← hwritten, ← hoverwrites]
          refine ⟨rfl, ?_, hfiles.step rfl (resolve_target_eq_append hplainG) ?_ hwrite⟩
          · split <;> simp
          · intro e' he' heq
            obtain ⟨g', hg', htarget⟩ := exists_of_mem_emissions he'
            rw [htarget] at heq ⊢
            exact target_eq_of_resolve_eq (hplain g' (List.mem_append_left _ hg')) hplainG heq

/-- **What is there when all is written.**  The paths that are reported are those of the declaration
files that could be made, and a path that an earlier one has is reported again with its source.  At
each of them stands the last text written for it.  Every other file is what it was, but with `clean`
nothing is left below the output directory.

A path that leads through a missing directory and back names nothing until that directory is made,
so nothing is cleaned there; `hclean` says that nothing was there to be cleaned.  For a path without
double dots that is so (`FileSystem.get?_resolve_eq_none`). -/
theorem writeAll_ok {clean : Bool} (hplain : ∀ g ∈ results, isPlainPath g.file = true)
    (hclean : clean = true → fs.locate? outdir = none → fs.tree.get? (fs.resolve outdir) = none)
    (h : writeAll fs outdir layout clean results = (fs', .ok report)) :
    report.written = (emissions outdir layout results).map (·.target) ∧
      report.overwrites = repeats (emissions outdir layout results) ∧
      (∀ before e after, emissions outdir layout results = before ++ e :: after →
        (∀ e' ∈ after, e'.target ≠ e.target) →
          fs'.tree.get? (fs.resolve e.target) = some (.file (encodeText e.text))) ∧
      (∀ names content,
        (∀ e ∈ emissions outdir layout results, fs.resolve e.target ≠ names) →
          (fs'.tree.get? names = some (.file content) ↔
            (clean = true → ¬ fs.resolve outdir <+: names) ∧
              fs.tree.get? names = some (.file content))) ∧
      (clean = true → ∀ names, fs.resolve outdir <+: names → fs'.tree.get? names ≠ none →
        ∃ e ∈ emissions outdir layout results, fs.OnTheWay e.target names) := by
  -- The file system that is written to, and what stands in it.
  obtain ⟨fs₁, hrun, hdir, hcleaned⟩ : ∃ fs₁,
      results.foldl (writeOne outdir layout) (fs₁, .ok {}) = (fs', .ok report) ∧
      fs₁.workingDir = fs.workingDir ∧ ∀ names, fs₁.tree.view names =
        if clean = true ∧ fs.resolve outdir <+: names then none else fs.tree.view names := by
    cases clean with
    | false => exact ⟨fs, by simpa [writeAll] using h, rfl, by simp⟩
    | true =>
      rcases hremove : fs.removeDir outdir with ⟨fs₁, f | ⟨⟩⟩
      · simp [writeAll, hremove] at h
      · obtain ⟨hdir, hview⟩ := removeDir_ok hremove (hclean rfl)
        exact ⟨fs₁, by simpa [writeAll, hremove] using h, hdir, by simpa using hview⟩
  obtain ⟨hwritten, hoverwrites, hfiles⟩ := foldl_writeOne_ok hplain hrun
  have hresolve := resolve_congr hdir
  refine ⟨hwritten, hoverwrites, ?_, ?_, ?_⟩
  · intro before e after hsplit hlast
    rw [← Node.view_eq_file, ← hresolve]
    exact hfiles.view_target before e after hsplit hlast
  · intro names content hnames
    have hfile : fs'.tree.view names = some (some content) ↔
        fs₁.tree.view names = some (some content) := by
      rcases hfiles.view_other names (by simpa only [hresolve] using hnames) with heq | ⟨h₁, h₂, -⟩
      · rw [heq]
      · simp [h₁, h₂]
    rw [← Node.view_eq_file, hfile, hcleaned, ← Node.view_eq_file]
    split
    · rename_i hbelow
      simp [hbelow]
    · rename_i hbelow
      exact ⟨fun h => ⟨fun hc hp => hbelow ⟨hc, hp⟩, h⟩, fun h => h.2⟩
  · rintro rfl names hbelow hsome
    have hnone : fs₁.tree.view names = none := by rw [hcleaned, if_pos ⟨rfl, hbelow⟩]
    by_cases hnames : ∃ e ∈ emissions outdir layout results, fs₁.resolve e.target = names
    · obtain ⟨e, he, rfl⟩ := hnames
      exact ⟨e, he, e.target.parts, List.prefix_rfl, (hresolve _).symm⟩
    · rcases hfiles.view_other names (fun e he heq => hnames ⟨e, he, heq⟩) with heq | ⟨-, -, hway⟩
      · exact absurd (Node.view_eq_none.1 (heq.trans hnone)) hsome
      · obtain ⟨e, he, parts, hparts, hway⟩ := hway
        exact ⟨e, he, parts, hparts, by rw [← hway, hresolve]⟩

/-- Two sources with one declaration file, and one that failed: the later one is what is there. -/
theorem writeAll_ok_flat :
    let fs : FileSystem :=
      { tree := .dir [("out".toList, .dir [("old.d.ts".toList, .file [1])])], workingDir := [] }
    let outdir := FilePath.parse "out".toList
    let results : List Generated :=
      [{ file := "a/x.ts".toList, status := .generated, output? := some "1".toList },
        { file := "y.ts".toList, status := .failed, error? := some [] },
        { file := "x.tsx".toList, status := .generated, output? := some "2".toList }]
    (∀ g ∈ results, isPlainPath g.file = true) ∧ fs.locate? outdir = some ["out".toList] ∧
      ∃ fs' report, writeAll fs outdir .flat true results = (fs', .ok report) ∧
        report.overwrites = [(FilePath.parse "out/x.d.ts".toList, "x.tsx".toList)] ∧
        fs'.tree.get? ["out".toList, "x.d.ts".toList] = some (.file (encodeText "2".toList)) := by
  intro fs outdir results
  have hplain : ∀ g ∈ results, isPlainPath g.file = true := by decide
  have hlocate : fs.locate? outdir = some ["out".toList] := rfl
  have hclean : true = true → fs.locate? outdir = none →
      fs.tree.get? (fs.resolve outdir) = none := by
    rw [hlocate]
    rintro - ⟨⟩
  have hfinishes : ∃ fs' report, writeAll fs outdir .flat true results = (fs', .ok report) :=
    ⟨_, _, rfl⟩
  obtain ⟨fs', report, hwrite⟩ := hfinishes
  obtain ⟨-, hoverwrites, htargets, -⟩ := writeAll_ok hplain hclean hwrite
  exact ⟨hplain, hlocate, fs', report, hwrite, hoverwrites, htargets [_] _ [] rfl (by simp)⟩

/-- An output directory is not cleaned if its path leads through a directory that is not there yet:
the directory is made all the same, and what was in the output directory stays beside what is
written. -/
theorem writeAll_clean_unlocated :
    let fs : FileSystem :=
      { tree := .dir [("out".toList, .dir [("old.d.ts".toList, .file [1])])], workingDir := [] }
    let outdir := FilePath.parse "missing/../out".toList
    let results : List Generated :=
      [{ file := "x.ts".toList, status := .generated, output? := some "1".toList }]
    ∃ fs' report, writeAll fs outdir .nested true results = (fs', .ok report) ∧
      report.written = [FilePath.parse "missing/../out/x.d.ts".toList] ∧
      fs.resolve outdir = ["out".toList] ∧
      fs'.tree.get? ["out".toList, "old.d.ts".toList] = some (.file [1]) :=
  ⟨_, _, rfl, rfl, rfl, rfl⟩

end ModuleSurface.Files

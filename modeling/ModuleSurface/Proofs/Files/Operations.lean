import ModuleSurface.Proofs.Files.Tree

/-!
# What operations on files change

Each operation is described by what stands at every path before and after it (`Node.view`).

* `FileSystem.makeDirs_ok`: nothing changes but for the directories that are made
  (`FileSystem.AddsDirs`);
* `FileSystem.writeFile_ok`: beyond that, the file stands at its place;
* `FileSystem.removeDir_ok`: nothing is left at the place and below, and nothing else changes.
-/

namespace ModuleSurface.Files

namespace FileSystem

variable {fs fs' fs'' : FileSystem} {p : FilePath} {names names' parts : List Text} {part : Text}

/-! ## Walks along paths -/

/-- The names that a walk along the parts leads to, whether or not anything stands there. -/
def walk (names parts : List Text) : List Text :=
  parts.foldl (fun names part => if part == FilePath.up then names.dropLast else names ++ [part])
    names

theorem resolve_eq_walk (fs : FileSystem) (p : FilePath) :
    fs.resolve p = walk (fs.start p) p.parts := rfl

theorem walk_append (names parts more : List Text) :
    walk names (parts ++ more) = walk (walk names parts) more :=
  List.foldl_append

theorem walk_of_not_mem (names : List Text) (h : FilePath.up ∉ parts) :
    walk names parts = names ++ parts := by
  induction parts generalizing names with
  | nil => simp [walk]
  | cons part parts ih =>
    obtain ⟨hpart, hparts⟩ := not_or.1 (mt List.mem_cons.2 h)
    have hne : (part == FilePath.up) = false := by simpa using Ne.symm hpart
    rw [walk, List.foldl_cons, hne, ← walk]
    simpa using ih (names ++ [part]) hparts

/-- Where a path leads depends on the working directory only. -/
theorem resolve_congr (h : fs'.workingDir = fs.workingDir) (p : FilePath) :
    fs'.resolve p = fs.resolve p := by
  rw [resolve_eq_walk, resolve_eq_walk, start, start, h]

theorem resolve_eq_append (fs : FileSystem) (hparts : p.parts ≠ []) (hname : p.name ≠ FilePath.up) :
    fs.resolve p = fs.resolve p.parent ++ [p.name] := by
  have hsplit : p.parts = p.parts.dropLast ++ [p.name] := by
    rw [FilePath.name, List.getLast?_eq_some_getLast hparts, Option.getD_some,
      List.dropLast_append_getLast]
  have hstart : fs.start p.parent = fs.start p := rfl
  rw [resolve_eq_walk, hsplit, walk_append, resolve_eq_walk, hstart,
    walk_of_not_mem _ (by simpa using Ne.symm hname)]
  rfl

/-- What stands at a path stands where the path leads. -/
theorem locate?_eq_some (h : fs.locate? p = some names) : names = fs.resolve p := by
  have hwalk : ∀ (parts start : List Text), parts.foldlM fs.follow? start = some names →
      names = walk start parts := by
    intro parts
    induction parts with
    | nil => exact fun start h => (Option.some.inj h).symm
    | cons part parts ih =>
      intro start h
      obtain ⟨next, hnext, hrest⟩ := Option.bind_eq_some_iff.1 h
      have hstep : next = walk start [part] := by
        simp only [follow?] at hnext
        simp only [walk, List.foldl_cons, List.foldl_nil]
        split at hnext
        · cases hnext
        · split at hnext
          · rename_i hup
            rw [if_pos hup]
            exact (Option.some.inj hnext).symm
          · rename_i hup
            rw [if_neg hup]
            split at hnext
            · exact (Option.some.inj hnext).symm
            · cases hnext
      rw [ih next hrest, hstep, ← walk_append, List.singleton_append]
  exact hwalk p.parts _ h

theorem isDirAt_iff : fs.isDirAt names = true ↔ fs.tree.view names = some none := by
  rw [isDirAt, Node.view_eq_dir, Option.any_eq_true]
  constructor
  · rintro ⟨n, hn, hdir⟩
    cases n with
    | file content => cases hdir
    | dir entries => exact ⟨entries, hn⟩
  · rintro ⟨entries, h⟩
    exact ⟨_, h, rfl⟩

/-- A path without double dots leads to what stands there, if anything does. -/
theorem get?_resolve_eq_none (hup : FilePath.up ∉ p.parts) (hstart : fs.isDirAt (fs.start p) = true)
    (h : fs.locate? p = none) : fs.tree.get? (fs.resolve p) = none := by
  have hwalk : ∀ (parts start : List Text), FilePath.up ∉ parts → fs.isDirAt start = true →
      parts.foldlM fs.follow? start = none → fs.tree.view (start ++ parts) = none := by
    intro parts
    induction parts with
    | nil =>
      intro start _ _ h
      cases h
    | cons part parts ih =>
      intro start hup hdir h
      obtain ⟨hpart, hparts⟩ := not_or.1 (mt List.mem_cons.2 hup)
      have hsplit : start ++ part :: parts = start ++ [part] ++ parts := by simp
      rw [hsplit]
      match hview : fs.tree.view (start ++ [part]) with
      | none => exact Node.view_append_eq_none hview parts
      | some stands =>
        have hsome : (fs.tree.get? (start ++ [part])).isSome = true := by
          rw [Option.isSome_iff_ne_none]
          intro hnone
          rw [Node.view_eq_none.2 hnone] at hview
          cases hview
        have hfollow : fs.follow? start part = some (start ++ [part]) := by
          simp [follow?, hdir, hsome, Ne.symm hpart]
        have hrest : parts.foldlM fs.follow? (start ++ [part]) = none := by
          simpa [hfollow] using h
        cases stands with
        | none => exact ih _ hparts (isDirAt_iff.2 hview) hrest
        | some content =>
          refine Node.view_below_file hview ?_
          rintro rfl
          cases hrest
  rw [resolve_eq_walk, walk_of_not_mem _ hup]
  exact Node.view_eq_none.1 (hwalk p.parts _ hup hstart h)

/-! ## Making directories -/

/-- The second file system is the first one with some more directories, all of them where `made`
says. -/
structure AddsDirs (made : List Text → Prop) (fs fs' : FileSystem) : Prop where
  /-- The working directory is the same. -/
  workingDir : fs'.workingDir = fs.workingDir
  /-- Everywhere stands what stood there before, or a directory where nothing stood. -/
  view : ∀ names, fs'.tree.view names = fs.tree.view names ∨
    (fs.tree.view names = none ∧ fs'.tree.view names = some none ∧ made names)

namespace AddsDirs

variable {made made' : List Text → Prop}

theorem refl (made : List Text → Prop) (fs : FileSystem) : AddsDirs made fs fs :=
  ⟨rfl, fun _ => .inl rfl⟩

theorem trans (h : AddsDirs made fs fs') (h' : AddsDirs made fs' fs'') : AddsDirs made fs fs'' := by
  refine ⟨h'.workingDir.trans h.workingDir, fun names => ?_⟩
  rcases h.view names with heq | ⟨hnone, hdir, hmade⟩
  · rcases h'.view names with heq' | ⟨hnone', hdir', hmade'⟩
    · exact .inl (heq'.trans heq)
    · exact .inr ⟨heq ▸ hnone', hdir', hmade'⟩
  · rcases h'.view names with heq' | ⟨hnone', -, -⟩
    · exact .inr ⟨hnone, heq'.trans hdir, hmade⟩
    · rw [hdir] at hnone'
      cases hnone'

theorem mono (hmade : ∀ names, made names → made' names) (h : AddsDirs made fs fs') :
    AddsDirs made' fs fs' :=
  ⟨h.workingDir, fun names => (h.view names).imp_right fun ⟨hnone, hdir, hm⟩ =>
    ⟨hnone, hdir, hmade names hm⟩⟩

/-- What stood somewhere still stands there. -/
theorem view_eq (h : AddsDirs made fs fs') (hsome : fs.tree.view names ≠ none) :
    fs'.tree.view names = fs.tree.view names :=
  (h.view names).resolve_right fun hmade => hsome hmade.1

/-- A file stands where it stood. -/
theorem view_eq_file (h : AddsDirs made fs fs') {content : List UInt8} :
    fs'.tree.view names = some (some content) ↔ fs.tree.view names = some (some content) := by
  rcases h.view names with heq | ⟨hnone, hdir, -⟩
  · rw [heq]
  · rw [hnone, hdir]
    simp

end AddsDirs

/-- One step makes at most the directory that it leads to. -/
theorem makeStep_ok (h : makeStep (fs, .ok names) part = (fs', .ok names')) :
    names' = walk names [part] ∧ AddsDirs (· = names') fs fs' := by
  simp only [makeStep] at h
  simp only [walk, List.foldl_cons, List.foldl_nil]
  split at h
  · rename_i hup
    obtain ⟨rfl, hnames⟩ := Prod.mk.inj h
    rw [if_pos hup]
    exact ⟨(Except.ok.inj hnames).symm, .refl _ _⟩
  · rename_i hup
    rw [if_neg hup]
    split at h
    · cases h
    · split at h
      · obtain ⟨rfl, hnames⟩ := Prod.mk.inj h
        exact ⟨(Except.ok.inj hnames).symm, .refl _ _⟩
      · cases h
      · rename_i hnothing
        split at h
        · rename_i hdir
          obtain ⟨rfl, hnames⟩ := Prod.mk.inj h
          obtain rfl := Except.ok.inj hnames
          have hview := Node.view_eq_none.2 hnothing
          refine ⟨rfl, rfl, fun other => ?_⟩
          have hset := Node.view_set_leaf (.dir []) (fun _ _ => rfl) (isDirAt_iff.1 hdir)
            (by rw [hview]; simp) other
          show (fs.tree.set (some (.dir [])) (names ++ [part])).view other = _ ∨ _
          by_cases hother : other = names ++ [part]
          · rw [if_pos hother] at hset
            exact .inr ⟨hother ▸ hview, hset, hother⟩
          · rw [if_neg hother] at hset
            exact .inl hset
        · cases h

theorem foldl_makeStep_error (fs : FileSystem) (f : FileFault) (parts : List Text) :
    parts.foldl makeStep (fs, .error f) = (fs, .error f) := by
  induction parts with
  | nil => rfl
  | cons part parts ih => exact ih

/-- A walk that makes directories leads where the parts lead, and makes directories on the way
only. -/
theorem foldl_makeStep_ok (h : parts.foldl makeStep (fs, .ok names) = (fs', .ok names')) :
    names' = walk names parts ∧
      AddsDirs (fun other => ∃ some, some <+: parts ∧ walk names some = other) fs fs' := by
  induction parts generalizing fs names with
  | nil =>
    obtain ⟨rfl, hnames⟩ := Prod.mk.inj h
    exact ⟨(Except.ok.inj hnames).symm, .refl _ _⟩
  | cons part parts ih =>
    rw [List.foldl_cons] at h
    rcases hstep : makeStep (fs, .ok names) part with ⟨fs₁, f | names₁⟩
    · rw [hstep, foldl_makeStep_error] at h
      cases h
    · rw [hstep] at h
      obtain ⟨hnames₁, hfirst⟩ := makeStep_ok hstep
      obtain ⟨hnames', hrest⟩ := ih h
      have hcons : ∀ more, walk names₁ more = walk names (part :: more) := by
        intro more
        rw [hnames₁, ← walk_append, List.singleton_append]
      refine ⟨hnames'.trans (hcons parts), (hfirst.mono ?_).trans (hrest.mono ?_)⟩
      · rintro other rfl
        exact ⟨[part], List.prefix_append _ _, hnames₁.symm⟩
      · rintro other ⟨some, hsome, hwalk⟩
        exact ⟨part :: some, (List.prefix_cons_inj part).2 hsome, (hcons some).symm.trans hwalk⟩

/-- The directories on the way to a path. -/
def OnTheWay (fs : FileSystem) (p : FilePath) (names : List Text) : Prop :=
  ∃ parts, parts <+: p.parts ∧ fs.resolve { p with parts := parts } = names

/-- **Making a directory makes directories on the way to it**, and changes nothing else. -/
theorem makeDirs_ok (h : fs.makeDirs p = (fs', .ok names)) :
    names = fs.resolve p ∧ AddsDirs (fs.OnTheWay p) fs fs' := by
  simp only [makeDirs] at h
  split at h
  · cases h
  · split at h
    · cases h
    · exact foldl_makeStep_ok h

/-! ## Writing files -/

/-- **Writing a file puts it where the path leads**, in directories that are made if they are
missing. -/
theorem writeFile_ok {content : List UInt8} (h : fs.writeFile p content = (fs', .ok ())) :
    ∃ fs₁, AddsDirs (fs.OnTheWay p.parent) fs fs₁ ∧ fs'.workingDir = fs.workingDir ∧
      ∀ names, fs'.tree.view names =
        if names = fs.resolve p.parent ++ [p.name] then some (some content)
        else fs₁.tree.view names := by
  rcases hdirs : fs.makeDirs p.parent with ⟨fs₁, f | parent⟩
  · rw [writeFile, hdirs] at h
    cases h
  · obtain ⟨rfl, hadds⟩ := makeDirs_ok hdirs
    simp only [writeFile, hdirs] at h
    split at h
    · cases h
    · split at h
      · cases h
      · split at h
        · cases h
        · rename_i hkind
          obtain ⟨rfl, -⟩ := Prod.mk.inj h
          simp only [Bool.or_eq_true, Bool.not_eq_true', not_or, Bool.not_eq_false] at hkind
          obtain ⟨hplace, hparent⟩ := hkind
          refine ⟨fs₁, hadds, hadds.workingDir, fun names => ?_⟩
          exact Node.view_set_leaf (.file content) (fun _ _ => rfl) (isDirAt_iff.1 hparent)
            (fun hdir => hplace (isDirAt_iff.2 hdir)) names

/-! ## Removing directories -/

/-- **Removing a directory leaves nothing at its place and below**, and changes nothing else.  A
path that passes through a missing directory is taken to lead nowhere, so nothing must stand where
it leads. -/
theorem removeDir_ok (h : fs.removeDir p = (fs', .ok ()))
    (hmissing : fs.locate? p = none → fs.tree.get? (fs.resolve p) = none) :
    fs'.workingDir = fs.workingDir ∧ ∀ names, fs'.tree.view names =
      if fs.resolve p <+: names then none else fs.tree.view names := by
  cases hlocate : fs.locate? p with
  | none =>
    have hfs : fs' = fs := by
      simp only [removeDir, hlocate] at h
      exact (Prod.mk.inj h).1.symm
    subst hfs
    refine ⟨rfl, fun names => ?_⟩
    split
    · rename_i hbelow
      obtain ⟨more, rfl⟩ := hbelow
      exact Node.view_append_eq_none (Node.view_eq_none.2 (hmissing hlocate)) more
    · rfl
  | some place =>
    obtain rfl := locate?_eq_some hlocate
    simp only [removeDir, hlocate] at h
    split at h
    · cases h
    · rename_i hdir
      split at h
      · cases h
      · rename_i hname
        simp only [Bool.or_eq_true, List.isEmpty_iff, beq_iff_eq, not_or] at hname
        simp only [Bool.not_eq_true', Bool.not_eq_false] at hdir
        obtain ⟨rfl, -⟩ := Prod.mk.inj h
        have hplace := resolve_eq_append fs hname.1 hname.2
        have hview := isDirAt_iff.1 hdir
        rw [hplace] at hview
        refine ⟨rfl, fun names => ?_⟩
        show (fs.tree.set none (fs.resolve p)).view names = _
        rw [hplace]
        exact Node.view_set_none (Node.view_parent (by rw [hview]; simp)) names

end FileSystem

end ModuleSurface.Files

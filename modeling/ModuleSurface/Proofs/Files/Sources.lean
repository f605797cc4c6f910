import Mathlib.Data.List.Basic
import Mathlib.Data.List.Flatten
import Mathlib.Data.List.Nodup
import Mathlib.Data.List.Perm.Basic
import ModuleSurface.Files.Sources
import ModuleSurface.Proofs.Files.Tree
import ModuleSurface.Proofs.Import.Usage

/-!
# What a search finds

A search finds the wanted files that no excluded directory hides, each once and in order.

* `Selection.reaches`: the description of what is found, by the names on the way to a file;
* `SearchProgress.yield`: what a search will have found in the end.  Looking at one entry adds what
  the entry has to give (`SearchProgress.yield_look`), and a whole search finds its yield
  (`SearchProgress.run_perm`);
* `FileSystem.search_sources`: the paths that are found, and `FileSystem.search_congr`: the order in
  which directories list their entries does not matter.
-/

namespace ModuleSurface.Files

/-- The path of a file or a directory relative to the directory that is searched. -/
def pathText (names : List Text) : Text :=
  Text.join "/".toList names

namespace Selection

variable {s : Selection} {dir : Text}

/-- Is the file at the names below the directory `dir` wanted, and no directory on the way to it
excluded? -/
def reaches (s : Selection) (dir : Text) : List Text → Bool
  | [] => false
  | [name] => !s.excludes (childPath dir name) && s.includes (childPath dir name)
  | name :: names@(_ :: _) =>
    !s.excludes (childPath dir name ++ "/".toList) && s.reaches (childPath dir name) names

/-- The paths of what is reached among the entries of the directory `dir`. -/
def reached (s : Selection) (dir : Text) (entries : List (Text × Node)) : List Text :=
  ((Node.filesIn entries).filter fun f => s.reaches dir f.1).map fun f => f.1.foldl childPath dir

@[simp]
theorem reached_nil : s.reached dir [] = [] := rfl

theorem reached_cons (e : Text × Node) (entries : List (Text × Node)) :
    s.reached dir (e :: entries) = s.reached dir [e] ++ s.reached dir entries := by
  simp [reached, Node.filesIn]

/-- A file is reached if it is wanted. -/
theorem reached_file (name : Text) (content : List UInt8) :
    s.reached dir [(name, .file content)] =
      if s.excludes (childPath dir name) then []
      else if s.includes (childPath dir name) then [childPath dir name] else [] := by
  cases hex : s.excludes (childPath dir name) <;>
    cases hin : s.includes (childPath dir name) <;>
      simp [reached, Node.filesIn, Node.files, reaches, hex, hin]

/-- What is below a directory is reached unless the directory is excluded. -/
theorem reached_dir (name : Text) (entries : List (Text × Node)) :
    s.reached dir [(name, .dir entries)] =
      if s.excludes (childPath dir name ++ "/".toList) then []
      else s.reached (childPath dir name) entries := by
  have hreaches : ∀ f ∈ Node.filesIn entries, s.reaches dir (name :: f.1) =
      (!s.excludes (childPath dir name ++ "/".toList) && s.reaches (childPath dir name) f.1) := by
    intro f hf
    obtain ⟨first, names, hnames, -⟩ := Node.exists_name_of_mem_filesIn hf
    rw [hnames, reaches]
  have hfiles : Node.filesIn [(name, .dir entries)] =
      (Node.filesIn entries).map fun f => (name :: f.1, f.2) := by
    simp [Node.filesIn, Node.files]
  rw [reached, hfiles, List.filter_map, List.map_map]
  split
  · rename_i hex
    have hnone : ∀ f ∈ Node.filesIn entries, s.reaches dir (name :: f.1) = false := by
      intro f hf
      rw [hreaches f hf, hex, Bool.not_true, Bool.false_and]
    have hfilter : (Node.filesIn entries).filter
        ((fun f => s.reaches dir f.1) ∘ fun f => (name :: f.1, f.2)) = [] := by
      rw [List.filter_eq_nil_iff]
      intro f hf
      simp [hnone f hf]
    rw [hfilter, List.map_nil]
  · rename_i hex
    have hfilter : (Node.filesIn entries).filter
        ((fun f => s.reaches dir f.1) ∘ fun f => (name :: f.1, f.2)) =
        (Node.filesIn entries).filter fun f => s.reaches (childPath dir name) f.1 := by
      refine List.filter_congr fun f hf => ?_
      rw [Function.comp_apply, hreaches f hf, Bool.eq_false_iff.2 hex, Bool.not_false,
        Bool.true_and]
    rw [hfilter]
    rfl

end Selection

/-! ## The run -/

namespace SearchProgress

variable {s : Selection}

/-- What a search will have found in the end: what it has found, and what is reached from the
directories that wait. -/
def yield (s : Selection) (p : SearchProgress) : List Text :=
  p.found ++ p.pending.flatMap fun d => s.reached d.1 d.2

/-- Looking at an entry adds what is reached through it. -/
theorem yield_look (dir : Text) (p : SearchProgress) (e : Text × Node) :
    ((p.look s dir e).yield s).Perm (p.yield s ++ s.reached dir [e]) := by
  obtain ⟨name, content | entries⟩ := e
  · rw [Selection.reached_file]
    simp only [look]
    split_ifs
    · simp
    · simp only [yield, List.append_assoc]
      exact List.perm_append_comm.append_left _
    · simp
  · rw [Selection.reached_dir]
    simp only [look]
    split_ifs
    · simp
    · simp only [yield, List.flatMap_cons, List.append_assoc]
      exact List.perm_append_comm.append_left _

theorem yield_read (dir : Text) (entries : List (Text × Node)) (p : SearchProgress) :
    ((p.read s dir entries).yield s).Perm (p.yield s ++ s.reached dir entries) := by
  induction entries generalizing p with
  | nil => simp [read]
  | cons e entries ih =>
    have hrest : (((p.look s dir e).read s dir entries).yield s).Perm
        ((p.look s dir e).yield s ++ s.reached dir entries) := ih _
    refine hrest.trans (((yield_look dir p e).append_right _).trans ?_)
    rw [Selection.reached_cons e entries, List.append_assoc]

/-- **A search finds its yield**, whatever the order of the directories. -/
theorem run_perm (p : SearchProgress) : (p.run s).Perm (p.yield s) := by
  induction p using run.induct s with
  | case1 found => simp [run, yield]
  | case2 found dir entries pending ih =>
    rw [run]
    refine (ih.trans (yield_read dir entries _)).trans ?_
    simp only [yield, List.flatMap_cons, List.append_assoc]
    exact List.perm_append_comm.append_left _

end SearchProgress

/-! ## Paths -/

theorem foldl_childPath {dir : Text} (hdir : dir ≠ []) (names : List Text) :
    names.foldl childPath dir = pathText (dir :: names) := by
  induction names generalizing dir with
  | nil => simp [pathText, Text.join]
  | cons name names ih =>
    have hchild : childPath dir name = dir ++ "/".toList ++ name := by simp [childPath, hdir]
    rw [List.foldl_cons, ih (by simp [hchild]), hchild, pathText, pathText, Text.join, Text.join,
      List.intercalate_cons_cons]
    cases names with
    | nil => simp
    | cons other names => simp [List.intercalate_cons_cons]

/-- The path that a search makes of the names on the way. -/
theorem foldl_childPath_nil {names : List Text} (h : ∀ name ∈ names, name ≠ []) :
    names.foldl childPath [] = pathText names := by
  cases names with
  | nil => rfl
  | cons name names =>
    have hchild : childPath [] name = name := rfl
    rw [List.foldl_cons, hchild, foldl_childPath (h name List.mem_cons_self)]

/-- Different names make different paths. -/
theorem pathText_inj {names names' : List Text} (h : ∀ name ∈ names, isEntryName name = true)
    (h' : ∀ name ∈ names', isEntryName name = true) (hne : names ≠ []) (hne' : names' ≠ [])
    (heq : pathText names = pathText names') : names = names' := by
  have hsplit : ∀ {ns : List Text}, (∀ name ∈ ns, isEntryName name = true) → ns ≠ [] →
      (pathText ns).splitOn '/' = ns := fun hns hnil =>
    List.splitOn_intercalate '/' (fun name hname => (isEntryName_iff.1 (hns name hname)).2) hnil
  rw [← hsplit h hne, heq, hsplit h' hne']

/-! ## What is reached -/

namespace Selection

variable {s : Selection} {dir : Text}

/-- Is the file at the names to be found: selected, not excluded, and below no excluded
directory? -/
def Wants (s : Selection) (names : List Text) : Prop :=
  s.includes (pathText names) = true ∧ s.excludes (pathText names) = false ∧
    ∀ above below, names = above ++ below → above ≠ [] → below ≠ [] →
      s.excludes (pathText above ++ "/".toList) = false

theorem reaches_iff {names : List Text} (hne : names ≠ []) :
    s.reaches dir names = true ↔
      s.includes (names.foldl childPath dir) = true ∧
      s.excludes (names.foldl childPath dir) = false ∧
      ∀ above below, names = above ++ below → above ≠ [] → below ≠ [] →
        s.excludes (above.foldl childPath dir ++ "/".toList) = false := by
  induction names generalizing dir with
  | nil => exact absurd rfl hne
  | cons name names ih =>
    cases names with
    | nil =>
      have hnone : ∀ above below : List Text, [name] = above ++ below → above ≠ [] →
          below = [] := by
        intro above below h habove
        rcases List.append_eq_singleton_iff.1 h.symm with ⟨rfl, -⟩ | ⟨-, hbelow⟩
        · exact absurd rfl habove
        · exact hbelow
      simp only [reaches, Bool.and_eq_true, Bool.not_eq_true', List.foldl_cons, List.foldl_nil]
      constructor
      · rintro ⟨hex, hin⟩
        exact ⟨hin, hex, fun above below h habove hbelow =>
          absurd (hnone above below h habove) hbelow⟩
      · rintro ⟨hin, hex, -⟩
        exact ⟨hex, hin⟩
    | cons other names =>
      rw [reaches, Bool.and_eq_true, Bool.not_eq_true', ih (List.cons_ne_nil _ _)]
      constructor
      · rintro ⟨hfirst, hin, hex, hrest⟩
        refine ⟨hin, hex, fun above below h habove hbelow => ?_⟩
        obtain ⟨first, above, rfl⟩ := List.exists_cons_of_ne_nil habove
        obtain ⟨rfl, heq⟩ := List.cons_eq_cons.1 h
        cases above with
        | nil => exact hfirst
        | cons a above => exact hrest _ below heq (List.cons_ne_nil _ _) hbelow
      · rintro ⟨hin, hex, hall⟩
        refine ⟨hall [name] _ rfl (List.cons_ne_nil _ _) (List.cons_ne_nil _ _), hin, hex, ?_⟩
        intro above below h habove hbelow
        exact hall (name :: above) below (by rw [h, List.cons_append]) (List.cons_ne_nil _ _) hbelow

theorem reaches_nil_iff {names : List Text} (h : ∀ name ∈ names, isEntryName name = true)
    (hne : names ≠ []) : s.reaches [] names = true ↔ s.Wants names := by
  have hpath : ∀ {ns : List Text}, (∀ name ∈ ns, isEntryName name = true) →
      ns.foldl childPath [] = pathText ns := fun hns =>
    foldl_childPath_nil fun name hname => (isEntryName_iff.1 (hns name hname)).1
  have habove : ∀ above below, names = above ++ below →
      above.foldl childPath [] = pathText above := by
    rintro above below rfl
    exact hpath fun name hname => h name (List.mem_append_left _ hname)
  rw [reaches_iff hne, hpath h, Wants]
  refine and_congr_right fun _ => and_congr_right fun _ => ?_
  constructor
  · intro hall above below heq
    rw [← habove above below heq]
    exact hall above below heq
  · intro hall above below heq
    rw [habove above below heq]
    exact hall above below heq

/-- The paths that are reached below a directory whose entries are named as they should be. -/
theorem mem_reached {entries : List (Text × Node)} (h : (Node.dir entries).isNamed = true)
    {p : Text} :
    p ∈ s.reached [] entries ↔ ∃ names content,
      (Node.dir entries).get? names = some (.file content) ∧ s.Wants names ∧
        p = pathText names := by
  simp only [reached, List.mem_map, List.mem_filter, Prod.exists]
  refine exists_congr fun names => exists_congr fun content => ?_
  rw [Node.mem_filesIn h, and_assoc]
  refine and_congr_right fun hget => ?_
  have hnames := Node.isEntryName_of_get? h hget
  have hne : names ≠ [] := by
    rintro rfl
    cases hget
  rw [reaches_nil_iff hnames hne,
    foldl_childPath_nil fun name hname => (isEntryName_iff.1 (hnames name hname)).1]
  exact and_congr_right fun _ => eq_comm

/-- No path is reached twice. -/
theorem nodup_reached {entries : List (Text × Node)} (h : (Node.dir entries).isNamed = true) :
    (s.reached [] entries).Nodup := by
  have hfiles : ((Node.filesIn entries).filter fun f => s.reaches [] f.1).Sublist
      (Node.filesIn entries) := List.filter_sublist
  have hnodup := (Node.nodup_filesIn h).sublist (hfiles.map (·.1))
  have hnames : ∀ f ∈ (Node.filesIn entries).filter fun f => s.reaches [] f.1,
      f.1 ≠ [] ∧ ∀ name ∈ f.1, isEntryName name = true := by
    rintro ⟨names, content⟩ hf
    have hget := (Node.mem_filesIn h).1 (List.mem_of_mem_filter hf)
    refine ⟨?_, Node.isEntryName_of_get? h hget⟩
    rintro rfl
    cases hget
  have hpath : s.reached [] entries =
      (((Node.filesIn entries).filter fun f => s.reaches [] f.1).map (·.1)).map pathText := by
    rw [reached, List.map_map]
    refine List.map_congr_left fun f hf => ?_
    exact foldl_childPath_nil fun name hname => (isEntryName_iff.1 ((hnames f hf).2 name hname)).1
  rw [hpath]
  refine List.Nodup.map_on ?_ hnodup
  intro names hmem names' hmem' heq
  obtain ⟨f, hf, rfl⟩ := List.mem_map.1 hmem
  obtain ⟨g, hg, rfl⟩ := List.mem_map.1 hmem'
  exact pathText_inj (hnames f hf).2 (hnames g hg).2 (hnames f hf).1 (hnames g hg).1 heq

end Selection

/-! ## What is found -/

theorem pairwise_sort (ts : List Text) : (Text.sort ts).Pairwise (· ≤ ·) := by
  refine (List.pairwise_mergeSort ?_ ?_ ts).imp Text.le_iff.1
  · intro a b c hab hbc
    exact Text.le_iff.2 ((Text.le_iff.1 hab).trans (Text.le_iff.1 hbc))
  · intro a b
    rcases le_total a b with h | h
    · simp [Text.le_iff.2 h]
    · simp [Text.le_iff.2 h]

namespace FileSystem

variable {fs : FileSystem} {root : FilePath} {s : Selection} {entries : List (Text × Node)}

/-- A search finds what is reached. -/
theorem search_perm (hroot : fs.tree.get? (fs.resolve root) = some (.dir entries)) :
    (fs.search root s).found.Perm (s.reached [] entries) := by
  rw [search, hroot]
  refine (List.mergeSort_perm _ _).trans ((SearchProgress.run_perm _).trans ?_)
  simp [SearchProgress.yield]

/-- What a search finds is in order. -/
theorem pairwise_search (fs : FileSystem) (root : FilePath) (s : Selection) :
    (fs.search root s).found.Pairwise (· ≤ ·) := by
  rw [search]
  split
  · exact pairwise_sort _
  · exact List.Pairwise.nil

/-- **The sources below a directory are the wanted files**: a search reads every directory, and
finds in strictly increasing order the paths of the files that are selected, not excluded and below
no excluded directory. -/
theorem search_sources (fs : FileSystem) (root : FilePath) (s : Selection)
    {entries : List (Text × Node)}
    (hroot : fs.tree.get? (fs.resolve root) = some (.dir entries))
    (hnamed : (Node.dir entries).isNamed = true) :
    (fs.search root s).unreadable = 0 ∧
      (fs.search root s).found.Pairwise (· < ·) ∧
      ∀ p, p ∈ (fs.search root s).found ↔ ∃ names content,
        (Node.dir entries).get? names = some (.file content) ∧ s.Wants names ∧
          p = pathText names := by
  have hperm := search_perm (s := s) hroot
  refine ⟨by rw [search, hroot], ?_, fun p => ?_⟩
  · have hnodup : (fs.search root s).found.Nodup :=
      hperm.nodup_iff.2 (Selection.nodup_reached hnamed)
    exact (pairwise_search fs root s).imp₂ (fun _ _ => lt_of_le_of_ne) hnodup
  · rw [hperm.mem_iff, Selection.mem_reached hnamed]

/-- A file below a directory that is excluded by its slash is not found, one beside it is. -/
theorem search_sources_pruned :
    let entries : List (Text × Node) :=
      [("b".toList, .dir [("c.ts".toList, .file []), ("a.ts".toList, .file [])]),
        ("out".toList, .dir [("a.ts".toList, .file [])]), ("a.ts".toList, .file [])]
    let fs : FileSystem := { tree := .dir entries, workingDir := [] }
    let s : Selection := ⟨fun p => p != "b/c.ts".toList, fun p => p == "out/".toList⟩
    fs.tree.get? (fs.resolve ⟨[], []⟩) = some (.dir entries) ∧
      (Node.dir entries).isNamed = true ∧
      "b/a.ts".toList ∈ (fs.search ⟨[], []⟩ s).found := by
  intro entries fs s
  have hroot : fs.tree.get? (fs.resolve ⟨[], []⟩) = some (.dir entries) := rfl
  have hnamed : (Node.dir entries).isNamed = true := by decide
  refine ⟨hroot, hnamed, ?_⟩
  refine ((search_sources fs ⟨[], []⟩ s hroot hnamed).2.2 _).2
    ⟨["b".toList, "a.ts".toList], [], rfl, ⟨by decide, by decide, ?_⟩, by decide⟩
  intro above below h habove hbelow
  rcases above with _ | ⟨first, _ | ⟨second, above⟩⟩
  · exact absurd rfl habove
  · obtain ⟨rfl, -⟩ := List.cons_eq_cons.1 h
    decide
  · obtain ⟨-, h⟩ := List.cons_eq_cons.1 h
    obtain ⟨-, h⟩ := List.cons_eq_cons.1 h
    exact absurd (List.append_eq_nil_iff.1 h.symm).2 hbelow

/-- The order in which the entries of directories are listed does not matter. -/
theorem search_congr {fs' : FileSystem} {root' : FilePath} {entries' : List (Text × Node)}
    (hroot : fs.tree.get? (fs.resolve root) = some (.dir entries))
    (hroot' : fs'.tree.get? (fs'.resolve root') = some (.dir entries'))
    (hnamed : (Node.dir entries).isNamed = true) (hnamed' : (Node.dir entries').isNamed = true)
    (hsame : ∀ names content, (Node.dir entries).get? names = some (.file content) ↔
      (Node.dir entries').get? names = some (.file content)) :
    fs.search root s = fs'.search root' s := by
  have hfiles : (Node.filesIn entries).Perm (Node.filesIn entries') := by
    refine (List.perm_ext_iff_of_nodup (Node.nodup_filesIn hnamed).of_map
      (Node.nodup_filesIn hnamed').of_map).2 ?_
    rintro ⟨names, content⟩
    rw [Node.mem_filesIn hnamed, Node.mem_filesIn hnamed', hsame]
  have hperm : (fs.search root s).found.Perm (fs'.search root' s).found :=
    (search_perm hroot).trans (((hfiles.filter _).map _).trans (search_perm hroot').symm)
  have hfound : (fs.search root s).found = (fs'.search root' s).found :=
    hperm.eq_of_pairwise (fun _ _ _ _ => le_antisymm) (pairwise_search fs root s)
      (pairwise_search fs' root' s)
  have hunreadable : (fs.search root s).unreadable = (fs'.search root' s).unreadable := by
    rw [search, search, hroot, hroot']
  exact congrArg₂ Search.mk hfound hunreadable

end FileSystem

end ModuleSurface.Files

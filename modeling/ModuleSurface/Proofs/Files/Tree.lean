import Mathlib.Data.List.Basic
import Mathlib.Data.List.Nodup
import ModuleSurface.Files.Tree

/-!
# Trees of files

The files that a tree lists are the files that stand at its paths, each once, if the entries of
every directory are named apart.

* `Node.mem_files`: what is listed stands at its path, and the other way round;
* `Node.nodup_files`: no path is listed twice;
* `Node.view`: what stands at a path, where a directory counts whatever is in it.  A change of one
  place changes what stands there and below (`Node.view_set_below`), and nothing else
  (`Node.view_set_of_not_prefix`).
-/

namespace ModuleSurface.Files

/-- May an entry of a directory have the name? -/
def isEntryName (name : Text) : Bool :=
  !name.isEmpty && !name.contains '/'

theorem isEntryName_iff {name : Text} : isEntryName name = true ↔ name ≠ [] ∧ '/' ∉ name := by
  simp [isEntryName]

namespace Node

mutual

/-- Has every entry of a directory in the tree a name that an entry may have, and none that another
entry of the directory has? -/
def isNamed : Node → Bool
  | file _ => true
  | dir entries => isNamedIn entries

/-- Is every entry of a directory, and below it, named as it should be? -/
def isNamedIn : List (Text × Node) → Bool
  | [] => true
  | (name, n) :: entries =>
    isEntryName name && !Named.has entries name && n.isNamed && isNamedIn entries

end

theorem isNamedIn_cons {name : Text} {n : Node} {entries : List (Text × Node)} :
    isNamedIn ((name, n) :: entries) = true ↔
      isEntryName name = true ∧ Named.has entries name = false ∧ n.isNamed = true ∧
        isNamedIn entries = true := by
  simp [isNamedIn, and_assoc]

/-- An entry of a directory is named as it should be, and so is what is below it. -/
theorem isNamed_of_lookup {name : Text} {n : Node} {entries : List (Text × Node)}
    (h : isNamedIn entries = true) (hlookup : entries.lookup name = some n) :
    isEntryName name = true ∧ n.isNamed = true := by
  induction entries with
  | nil => cases hlookup
  | cons e entries ih =>
    obtain ⟨first, m⟩ := e
    obtain ⟨hfirst, -, hm, hentries⟩ := isNamedIn_cons.1 h
    rw [List.lookup_cons] at hlookup
    split at hlookup
    · rename_i hname
      obtain rfl := beq_iff_eq.1 hname
      obtain rfl := Option.some.inj hlookup
      exact ⟨hfirst, hm⟩
    · exact ih hentries hlookup

/-- The names on the way to what stands in a tree may be names of entries. -/
theorem isEntryName_of_get? {n m : Node} {names : List Text} (h : n.isNamed = true)
    (hget : n.get? names = some m) : ∀ name ∈ names, isEntryName name = true := by
  induction names generalizing n with
  | nil => simp
  | cons name names ih =>
    cases n with
    | file content => cases hget
    | dir entries =>
      obtain ⟨child, hchild, hget⟩ := Option.bind_eq_some_iff.1 hget
      obtain ⟨hname, hn⟩ := isNamed_of_lookup h hchild
      rw [List.forall_mem_cons]
      exact ⟨hname, ih hn hget⟩

/-! ## What is listed -/

theorem get?_dir_cons_of_eq {name : Text} {n : Node} {entries : List (Text × Node)}
    {names : List Text} : (dir ((name, n) :: entries)).get? (name :: names) = n.get? names := by
  simp [get?]

theorem get?_dir_cons_of_ne {name other : Text} {n : Node} {entries : List (Text × Node)}
    {names : List Text} (h : other ≠ name) :
    (dir ((name, n) :: entries)).get? (other :: names) = (dir entries).get? (other :: names) := by
  have hne : (other == name) = false := by simpa using h
  simp [get?, List.lookup_cons, hne]

/-- A name that no entry has leads nowhere. -/
theorem get?_dir_eq_none {name : Text} {entries : List (Text × Node)} {names : List Text}
    (h : Named.has entries name = false) : (dir entries).get? (name :: names) = none := by
  have hlookup : entries.lookup name = none := by
    rw [List.lookup_eq_none_iff]
    intro e he
    have hne : e.1 ≠ name := by simpa using List.any_eq_false.1 h e he
    simpa using hne.symm
  rw [get?, hlookup, Option.bind_none]

theorem mem_filesIn_cons {name : Text} {n : Node} {entries : List (Text × Node)}
    {f : List Text × List UInt8} :
    f ∈ filesIn ((name, n) :: entries) ↔
      (∃ names, f.1 = name :: names ∧ (names, f.2) ∈ n.files) ∨ f ∈ filesIn entries := by
  obtain ⟨path, content⟩ := f
  simp only [filesIn, List.mem_append, List.mem_map, Prod.mk.injEq, Prod.exists]
  constructor
  · rintro (⟨names, c, hmem, rfl, rfl⟩ | hmem)
    · exact .inl ⟨names, rfl, hmem⟩
    · exact .inr hmem
  · rintro (⟨names, rfl, hmem⟩ | hmem)
    · exact .inl ⟨names, content, hmem, rfl, rfl⟩
    · exact .inr hmem

/-- The path of a file below a directory begins with the name of an entry. -/
theorem exists_name_of_mem_filesIn {entries : List (Text × Node)} {f : List Text × List UInt8}
    (h : f ∈ filesIn entries) :
    ∃ name names, f.1 = name :: names ∧ Named.has entries name = true := by
  induction entries with
  | nil => simp [filesIn] at h
  | cons e entries ih =>
    obtain ⟨name, n⟩ := e
    rcases mem_filesIn_cons.1 h with ⟨names, hf, -⟩ | h
    · exact ⟨name, names, hf, by simp [Named.has]⟩
    · obtain ⟨other, names, hf, hhas⟩ := ih h
      exact ⟨other, names, hf, by simp only [Named.has, List.any_cons] at hhas ⊢; simp [hhas]⟩

mutual

/-- **The files of a tree are the files that stand at its paths.** -/
theorem mem_files {n : Node} (h : n.isNamed = true) {names : List Text} {content : List UInt8} :
    (names, content) ∈ n.files ↔ n.get? names = some (file content) := by
  match n with
  | file c => cases names <;> simp [files, get?, eq_comm]
  | dir entries =>
    rw [files]
    exact mem_filesIn h

theorem mem_filesIn {entries : List (Text × Node)} (h : isNamedIn entries = true)
    {names : List Text} {content : List UInt8} :
    (names, content) ∈ filesIn entries ↔ (dir entries).get? names = some (file content) := by
  match entries with
  | [] => cases names <;> simp [filesIn, get?]
  | (name, n) :: entries =>
    obtain ⟨-, hfresh, hn, hentries⟩ := isNamedIn_cons.1 h
    rw [mem_filesIn_cons, mem_filesIn hentries]
    cases names with
    | nil => simp [get?]
    | cons other names =>
      by_cases hname : other = name
      · subst hname
        simp [get?_dir_cons_of_eq, get?_dir_eq_none hfresh, mem_files hn]
      · simp [get?_dir_cons_of_ne hname, hname]

end

mutual

/-- No path is listed twice. -/
theorem nodup_files {n : Node} (h : n.isNamed = true) : (n.files.map (·.1)).Nodup := by
  match n with
  | file c => simp [files]
  | dir entries =>
    rw [files]
    exact nodup_filesIn h

theorem nodup_filesIn {entries : List (Text × Node)} (h : isNamedIn entries = true) :
    ((filesIn entries).map (·.1)).Nodup := by
  match entries with
  | [] => simp [filesIn]
  | (name, n) :: entries =>
    obtain ⟨-, hfresh, hn, hentries⟩ := isNamedIn_cons.1 h
    have hfirst : (n.files.map fun f => name :: f.1).Nodup := by
      have := (nodup_files hn).map (List.cons_injective (a := name))
      rwa [List.map_map] at this
    rw [filesIn, List.map_append, List.map_map, List.nodup_append]
    refine ⟨hfirst, nodup_filesIn hentries, ?_⟩
    -- Paths below the first entry begin with its name, which no other entry has.
    rintro _ hleft _ hright rfl
    obtain ⟨f, -, hf⟩ := List.mem_map.1 hleft
    obtain ⟨g, hg, hgf⟩ := List.mem_map.1 hright
    obtain ⟨other, names, hother, hhas⟩ := exists_name_of_mem_filesIn hg
    have hsame : name :: f.1 = other :: names := by rw [← hother, hgf]; exact hf
    obtain ⟨rfl, -⟩ := List.cons_eq_cons.1 hsame
    exact absurd (hhas.symm.trans hfresh) (by decide)

end

/-! ## What stands at a path -/

/-- The bytes of a file. -/
def content? : Node → Option (List UInt8)
  | file content => some content
  | dir _ => none

/-- What stands at the names: nothing, a directory, or a file with its bytes. -/
def view (n : Node) (names : List Text) : Option (Option (List UInt8)) :=
  (n.get? names).map content?

@[simp]
theorem view_nil (n : Node) : n.view [] = some n.content? := by
  cases n <;> rfl

@[simp]
theorem view_file_cons (content : List UInt8) (name : Text) (names : List Text) :
    (file content).view (name :: names) = none := rfl

theorem view_dir_cons (entries : List (Text × Node)) (name : Text) (names : List Text) :
    (dir entries).view (name :: names) = (entries.lookup name).bind (·.view names) := by
  rw [view, get?, Option.map_bind]
  rfl

theorem get?_append (n : Node) (names more : List Text) :
    n.get? (names ++ more) = (n.get? names).bind (·.get? more) := by
  induction names generalizing n with
  | nil => cases n <;> rfl
  | cons name names ih =>
    cases n with
    | file content => rfl
    | dir entries => simp [get?, ih, Option.bind_assoc]

theorem view_append (n : Node) (names more : List Text) :
    n.view (names ++ more) = (n.get? names).bind (·.view more) := by
  rw [view, get?_append, Option.map_bind]
  rfl

theorem view_eq_file {n : Node} {names : List Text} {content : List UInt8} :
    n.view names = some (some content) ↔ n.get? names = some (file content) := by
  rw [view, Option.map_eq_some_iff]
  constructor
  · rintro ⟨m, hm, hcontent⟩
    cases m with
    | file c => rw [hm, ← Option.some.inj hcontent]
    | dir entries => cases hcontent
  · exact fun h => ⟨_, h, rfl⟩

theorem view_eq_dir {n : Node} {names : List Text} :
    n.view names = some none ↔ ∃ entries, n.get? names = some (dir entries) := by
  rw [view, Option.map_eq_some_iff]
  constructor
  · rintro ⟨m, hm, hcontent⟩
    cases m with
    | file c => cases hcontent
    | dir entries => exact ⟨entries, hm⟩
  · rintro ⟨entries, h⟩
    exact ⟨_, h, rfl⟩

theorem view_eq_none {n : Node} {names : List Text} :
    n.view names = none ↔ n.get? names = none := by
  rw [view, Option.map_eq_none_iff]

/-- Where nothing stands, nothing stands below. -/
theorem view_append_eq_none {n : Node} {names : List Text} (h : n.view names = none)
    (more : List Text) : n.view (names ++ more) = none := by
  rw [view_append, view_eq_none.1 h, Option.bind_none]

/-- Below a file nothing stands. -/
theorem view_below_file {n : Node} {names : List Text} {content : List UInt8}
    (h : n.view names = some (some content)) {more : List Text} (hmore : more ≠ []) :
    n.view (names ++ more) = none := by
  obtain ⟨name, more, rfl⟩ := List.exists_cons_of_ne_nil hmore
  rw [view_append, view_eq_file.1 h, Option.bind_some, view_file_cons]

/-! ## Changes of one place -/

theorem lookup_filter_ne (name other : Text) (entries : List (Text × Node)) :
    (entries.filter fun e => e.1 != name).lookup other =
      if other == name then none else entries.lookup other := by
  induction entries with
  | nil => simp
  | cons e entries ih =>
    obtain ⟨first, n⟩ := e
    rw [List.filter_cons, List.lookup_cons]
    by_cases hfirst : first = name
    · subst hfirst
      simp only [bne_self_eq_false, Bool.false_eq_true, if_false, ih]
      cases other == first <;> rfl
    · have hne : (first != name) = true := bne_iff_ne.2 hfirst
      rw [if_pos hne, List.lookup_cons, ih]
      by_cases hother : other = first
      · subst hother
        simp [hfirst]
      · have hother' : (other == first) = false := by simpa using hother
        rw [hother']

/-- A change somewhere below a directory gives the entry on the way a new node. -/
theorem exists_set_dir (v : Option Node) (name : Text) (names : List Text)
    (entries : List (Text × Node)) :
    ∃ entries', (dir entries).set v (name :: names) = dir entries' ∧
      ∀ other, entries'.lookup other =
        if other == name then
          if names = [] then v else (entries.lookup name).map fun n => n.set v names
        else entries.lookup other := by
  cases names with
  | nil =>
    cases v with
    | none => exact ⟨_, rfl, fun other => lookup_filter_ne name other entries⟩
    | some n => exact ⟨_, rfl, fun other => Named.lookup_put name other n entries⟩
  | cons second names =>
    cases hlookup : entries.lookup name with
    | none =>
      refine ⟨entries, by rw [set, hlookup], fun other => ?_⟩
      by_cases hother : other = name
      · subst hother
        simp [hlookup]
      · simp [hother]
    | some n =>
      refine ⟨Named.put name (n.set v (second :: names)) entries, by rw [set, hlookup],
        fun other => ?_⟩
      rw [Named.lookup_put]
      rfl

/-- A change leaves alone what is neither at its place nor below. -/
theorem view_set_of_not_prefix {v : Option Node} {names other : List Text} (n : Node)
    (h : ¬ names <+: other) : (n.set v names).view other = n.view other := by
  induction names generalizing n other with
  | nil => exact absurd List.nil_prefix h
  | cons name names ih =>
    cases n with
    | file content => cases names <;> rfl
    | dir entries =>
      obtain ⟨entries', hset, hlookup⟩ := exists_set_dir v name names entries
      rw [hset]
      cases other with
      | nil => simp [content?]
      | cons first other =>
        rw [view_dir_cons, view_dir_cons, hlookup]
        split
        · rename_i hfirst
          obtain rfl := beq_iff_eq.1 hfirst
          have hbelow : ¬ names <+: other := fun hp => h ((List.prefix_cons_inj first).2 hp)
          have hne : names ≠ [] := by
            rintro rfl
            exact hbelow List.nil_prefix
          rw [if_neg hne, Option.bind_map]
          exact Option.bind_congr fun n _ => ih n hbelow
        · rfl

/-- What is put into a directory stands there. -/
theorem view_set_below {v : Option Node} {parent : List Text} {n : Node}
    (h : n.view parent = some none) (name : Text) (more : List Text) :
    (n.set v (parent ++ [name])).view (parent ++ name :: more) = v.bind (·.view more) := by
  induction parent generalizing n with
  | nil =>
    cases n with
    | file content => cases h
    | dir entries =>
      obtain ⟨entries', hset, hlookup⟩ := exists_set_dir v name [] entries
      rw [List.nil_append, hset, List.nil_append, view_dir_cons, hlookup]
      simp
  | cons first parent ih =>
    cases n with
    | file content => cases h
    | dir entries =>
      obtain ⟨entries', hset, hlookup⟩ := exists_set_dir v first (parent ++ [name]) entries
      rw [view_dir_cons] at h
      obtain ⟨child, hchild, hview⟩ := Option.bind_eq_some_iff.1 h
      rw [List.cons_append, hset, List.cons_append, view_dir_cons, hlookup, hchild]
      simpa using ih hview

/-- The directory that holds what stands somewhere. -/
theorem view_parent {n : Node} {parent : List Text} {name : Text}
    (h : n.view (parent ++ [name]) ≠ none) : n.view parent = some none := by
  rw [view_append] at h
  cases hparent : n.get? parent with
  | none => simp [hparent] at h
  | some m =>
    cases m with
    | file content => simp [hparent] at h
    | dir entries => exact view_eq_dir.2 ⟨entries, hparent⟩

/-- A node with nothing below it that is put where no directory is changes its own place only. -/
theorem view_set_leaf {n : Node} (leaf : Node) {parent : List Text} {name : Text}
    (hleaf : ∀ first more, leaf.view (first :: more) = none) (hparent : n.view parent = some none)
    (hname : n.view (parent ++ [name]) ≠ some none) (names : List Text) :
    (n.set (some leaf) (parent ++ [name])).view names =
      if names = parent ++ [name] then some leaf.content? else n.view names := by
  split
  · rename_i hnames
    rw [hnames, view_set_below hparent, Option.bind_some, view_nil]
  · rename_i hnames
    by_cases hbelow : parent ++ [name] <+: names
    · obtain ⟨more, rfl⟩ := hbelow
      have hmore : more ≠ [] := by
        rintro rfl
        exact hnames (List.append_nil _)
      have hnothing : n.view (parent ++ [name] ++ more) = none := by
        match hview : n.view (parent ++ [name]) with
        | none => exact view_append_eq_none hview more
        | some none => exact absurd hview hname
        | some (some content) => exact view_below_file hview hmore
      obtain ⟨first, more, rfl⟩ := List.exists_cons_of_ne_nil hmore
      rw [hnothing, List.append_assoc, List.singleton_append, view_set_below hparent,
        Option.bind_some, hleaf]
    · exact view_set_of_not_prefix n hbelow

/-- When a place is cleared, nothing is left there and below. -/
theorem view_set_none {n : Node} {parent : List Text} {name : Text}
    (hparent : n.view parent = some none) (names : List Text) :
    (n.set none (parent ++ [name])).view names =
      if parent ++ [name] <+: names then none else n.view names := by
  split
  · rename_i hbelow
    obtain ⟨more, rfl⟩ := hbelow
    rw [List.append_assoc, List.singleton_append, view_set_below hparent, Option.bind_none]
  · rename_i hbelow
    exact view_set_of_not_prefix n hbelow

end Node

end ModuleSurface.Files

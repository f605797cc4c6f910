import ModuleSurface.Proofs.Import.Clause
import ModuleSurface.Proofs.Lexing.Quoted

/-!
# Reading a rendered import

A rendered import is read back as the statement that it was rendered from.

* `clauseFrom?_append` — the clause ends at the one `from` that a quote follows;
* `required?_append` and `required?_eq_none` — a required module is told from a clause;
* `parse?_render` — every statement that can be written is read back.
-/

namespace ModuleSurface.ImportStatement

open ModuleSurface.Lexing

variable {s : ImportStatement} {source : Text}

/-! ## Sources -/

/-- The source of an import: not empty, without quotes and white space. -/
def IsSource (source : Text) : Prop :=
  source ≠ [] ∧ ∀ c ∈ source, c ≠ '\'' ∧ c ≠ '"' ∧ Text.isBlank c = false

theorem skipSpaces_cons {c : Char} (hc : Text.isBlank c = false) (r : Text) :
    skipSpaces (c :: r) = c :: r := by
  rw [skipSpaces, List.dropWhile_cons_of_neg (by simp [hc])]

theorem skipSpaces_space (t : Text) : skipSpaces (' ' :: t) = skipSpaces t := by
  rw [skipSpaces, List.dropWhile_cons_of_pos (by decide), ← skipSpaces]

/-- The source between quotes is read back. -/
theorem source?_quoted (h : IsSource source) (more : Text) :
    source? (' ' :: '\'' :: (source ++ '\'' :: more)) = some source := by
  obtain ⟨c, r, rfl⟩ := List.exists_cons_of_ne_nil h.1
  have hfree : ∀ d ∈ r, (d != '\'') = true := by
    intro d hd
    simpa using (h.2 d (List.mem_cons_of_mem _ hd)).1
  have hopen : openQuote? (' ' :: '\'' :: (c :: r ++ '\'' :: more)) =
      some ('\'', c :: (r ++ '\'' :: more)) := by
    rw [openQuote?, skipSpaces_space, skipSpaces_cons (by decide)]
    rfl
  simp only [source?, hopen]
  rw [if_pos (by simp), List.takeWhile_append_of_pos hfree, List.takeWhile_cons_of_neg (by simp),
    List.append_nil]

/-- No source is read where something else than a quote follows the white space. -/
theorem source?_eq_none {t r : Text} {c : Char} (ht : skipSpaces t = c :: r) (hc : Quiet c) :
    source? t = none := by
  have hquotes : c ≠ '\'' ∧ c ≠ '"' := by
    simp only [Quiet, List.mem_cons, List.not_mem_nil, or_false, not_or] at hc
    exact ⟨hc.2.1, hc.2.2.1⟩
  have hopen : openQuote? t = none := by
    simp [openQuote?, ht, hquotes.1, hquotes.2]
  simp only [source?, hopen]

/-! ## Clauses -/

/-- White space is skipped within what is in front of something else. -/
theorem dropWhile_append_cons {p : Char → Bool} {d : Char} (hd : p d = false) (u v : Text) :
    (u ++ d :: v).dropWhile p = u.dropWhile p ++ d :: v := by
  rw [List.dropWhile_append]
  split
  · rename_i hempty
    rw [List.isEmpty_iff.1 hempty, List.dropWhile_cons_of_neg (by simp [hd])]
    rfl
  · rfl

/-- Behind quiet characters and white space the last `from` follows. -/
theorem exists_skipSpaces {x : Text} (hx : ∀ c ∈ x, Quiet c) (rest : Text) :
    ∃ c r, skipSpaces (x ++ " from".toList ++ rest) = c :: r ∧ Quiet c := by
  induction x with
  | nil => exact ⟨'f', _, rfl, by decide⟩
  | cons c x ih =>
    obtain ⟨hc, hx⟩ := List.forall_mem_cons.1 hx
    by_cases hblank : Text.isBlank c = true
    · obtain ⟨d, r, hskip, hd⟩ := ih hx
      refine ⟨d, r, ?_, hd⟩
      rw [← hskip, skipSpaces, skipSpaces, List.cons_append, List.cons_append,
        List.dropWhile_cons_of_pos hblank]
    · exact ⟨c, _, skipSpaces_cons (by simpa using hblank) _, hc⟩

/-- In front of the last `from` there is no `from` that a quote follows. -/
theorem fromSource?_eq_none (clause : Text) (hquiet : ∀ c ∈ clause, Quiet c)
    (before : Option Char) (rest : Text) :
    fromSource? before (clause ++ " from".toList ++ rest) = none := by
  rw [fromSource?]
  split
  · rfl
  cases hafter : Text.after? "from".toList (clause ++ " from".toList ++ rest) with
  | none => rfl
  | some t =>
    have hmore : clause ++ (" from".toList ++ rest) = "from".toList ++ t := by
      simp only [Text.after?] at hafter
      split at hafter
      · rename_i hprefix
        cases hafter
        obtain ⟨more, hmore⟩ := List.isPrefixOf_iff_prefix.1 hprefix
        rw [← List.append_assoc, ← hmore, List.drop_left]
      · cases hafter
    obtain ⟨x, hx, hsub⟩ : ∃ x, t = x ++ " from".toList ++ rest ∧ ∀ c ∈ x, c ∈ clause := by
      rcases List.append_eq_append_iff.1 hmore with ⟨y, hfrom, hrest⟩ | ⟨x, rfl, rfl⟩
      · cases y with
        | nil => exact ⟨[], by simpa using hrest.symm, by simp⟩
        | cons d y =>
          -- the space behind the clause would be a letter of the word
          have hd : d = ' ' := (List.cons.inj hrest).1.symm
          have hmem : ' ' ∈ "from".toList := by
            rw [hfrom, hd]
            simp
          exact absurd hmem (by decide)
      · exact ⟨x, by simp, fun c hc => List.mem_append_right _ hc⟩
    obtain ⟨c, r, hskip, hc⟩ := exists_skipSpaces (fun c hc => hquiet c (hsub c hc)) rest
    rw [Option.bind_some, hx]
    exact source?_eq_none hskip hc

/-- The source that the last `from` names. -/
theorem fromSource?_quoted (h : IsSource source) (before : Option Char)
    (hbefore : before.any Text.isWordChar = false) (more : Text) :
    fromSource? before ("from '".toList ++ (source ++ '\'' :: more)) = some source := by
  have hsplit : "from '".toList ++ (source ++ '\'' :: more) =
      "from".toList ++ (' ' :: '\'' :: (source ++ '\'' :: more)) := rfl
  rw [fromSource?, if_neg (by simp [hbefore]), hsplit, Text.after?_append, Option.bind_some,
    source?_quoted h]

/-- **A clause ends at the one `from` that a quote follows**, whatever its names are. -/
theorem clauseFrom?_append (h : IsSource source) {clause : Text} (hquiet : ∀ c ∈ clause, Quiet c)
    (hlast : ∀ c ∈ clause.getLast?, Text.isBlank c = false) (before : Option Char)
    (front more : Text) :
    clauseFrom? before front (clause ++ (" from '".toList ++ (source ++ '\'' :: more))) =
      some (front.reverse ++ clause, source) := by
  induction clause generalizing before front with
  | nil =>
    have hsource := fromSource?_quoted h (some ' ') (by decide) more
    have hcons : [] ++ (" from '".toList ++ (source ++ '\'' :: more)) =
        ' ' :: ("from '".toList ++ (source ++ '\'' :: more)) := rfl
    have hspaces : (' ' :: ("from '".toList ++ (source ++ '\'' :: more))).takeWhile Text.isBlank =
        [' '] := by
      rw [List.takeWhile_cons_of_pos (by decide)]
      rfl
    have hskip : skipSpaces ("from '".toList ++ (source ++ '\'' :: more)) =
        "from '".toList ++ (source ++ '\'' :: more) := skipSpaces_cons (by decide) _
    rw [hcons, clauseFrom?, hspaces]
    simp only [skipSpaces_space, hskip]
    rw [if_neg (by simp), List.getLast?_singleton, hsource, List.append_nil]
  | cons c clause ih =>
    obtain ⟨-, hrest⟩ := List.forall_mem_cons.1 hquiet
    have hne : (c :: clause).dropWhile Text.isBlank ≠ [] := by
      intro hnil
      obtain ⟨d, hd⟩ : ∃ d, (c :: clause).getLast? = some d :=
        ⟨_, List.getLast?_eq_some_getLast (List.cons_ne_nil c clause)⟩
      have hblank := List.dropWhile_eq_nil_iff.1 hnil d (List.mem_of_getLast? hd)
      rw [hlast d hd] at hblank
      cases hblank
    have hskip : skipSpaces (c :: (clause ++ (" from '".toList ++ (source ++ '\'' :: more)))) =
        (c :: clause).dropWhile Text.isBlank ++ " from".toList ++
          (" '".toList ++ (source ++ '\'' :: more)) := by
      rw [skipSpaces, ← List.cons_append, List.dropWhile_append, if_neg (by simpa using hne)]
      simp
    have hnone := fromSource?_eq_none ((c :: clause).dropWhile Text.isBlank)
      fun d hd => hquiet d ((List.dropWhile_suffix _).subset hd)
    have hlast' : ∀ d ∈ clause.getLast?, Text.isBlank d = false := by
      intro d hd
      refine hlast d ?_
      rw [Option.mem_def] at hd ⊢
      rw [List.getLast?_cons, hd]
      rfl
    rw [List.cons_append, clauseFrom?]
    simp only [hskip, hnone]
    rw [ih hrest hlast' (some c) (c :: front)]
    simp

/-! ## Required modules -/

/-- Without an equals sign in front of the quote no module is required. -/
theorem required?_eq_none {u : Text} (hu : '=' ∉ u) (v : Text) :
    required? (u ++ '\'' :: v) = none := by
  have hskip : skipSpaces ((u ++ '\'' :: v).drop
      ((u ++ '\'' :: v).takeWhile Text.isIdentChar).length) =
        (u.dropWhile Text.isIdentChar).dropWhile Text.isBlank ++ '\'' :: v := by
    rw [Text.drop_length_takeWhile, dropWhile_append_cons (by decide), skipSpaces,
      dropWhile_append_cons (by decide)]
  simp only [required?]
  split
  · rfl
  split
  · rename_i rest heq
    rw [hskip] at heq
    have hmem : '=' ∈ u ++ ['\''] := by
      cases hrest : (u.dropWhile Text.isIdentChar).dropWhile Text.isBlank with
      | nil =>
        rw [hrest] at heq
        cases heq
      | cons c r =>
        rw [hrest] at heq
        rw [(List.cons.inj heq).1] at hrest
        have hsub : (u.dropWhile Text.isIdentChar).dropWhile Text.isBlank <:+ u :=
          (List.dropWhile_suffix _).trans (List.dropWhile_suffix _)
        exact List.mem_append_left _ (hsub.subset (by rw [hrest]; exact List.mem_cons_self))
    simp [hu] at hmem
  · rfl

/-- The name and the module of an assignment are read back. -/
theorem required?_append {name : Text} (hname : Text.IsName name) (h : IsSource source) :
    required? (name ++ (" = require('".toList ++ (source ++ "')".toList))) =
      some (name, source) := by
  have htake : (name ++ (" = require('".toList ++ (source ++ "')".toList))).takeWhile
      Text.isIdentChar = name := by
    rw [List.takeWhile_append_of_pos hname.2]
    have hstop : (" = require('".toList ++ (source ++ "')".toList)).takeWhile Text.isIdentChar =
        [] := List.takeWhile_cons_of_neg (by decide)
    rw [hstop, List.append_nil]
  have hmodule : requiredSource? ('\'' :: (source ++ "')".toList)) = some source := by
    obtain ⟨c, r, hreverse⟩ := List.exists_cons_of_ne_nil (fun hnil : source.reverse = [] =>
      h.1 (List.reverse_eq_nil_iff.1 hnil))
    have hopen : openQuote? ('\'' :: (source ++ "')".toList)) =
        some ('\'', source ++ "')".toList) := by
      rw [openQuote?, skipSpaces_cons (by decide)]
      rfl
    have hback : (source ++ "')".toList).reverse = ')' :: '\'' :: c :: r := by
      rw [List.reverse_append, hreverse]
      rfl
    have hsource : (c :: r).reverse = source := by
      rw [← hreverse, List.reverse_reverse]
    simp only [requiredSource?, hopen, hback]
    rw [skipSpaces_cons (by decide)]
    simp only [hsource]
    rfl
  have hsign : skipSpaces (" = require('".toList ++ (source ++ "')".toList)) =
      '=' :: (" require('".toList ++ (source ++ "')".toList)) := rfl
  have hcall : skipSpaces (" require('".toList ++ (source ++ "')".toList)) =
      "require(".toList ++ '\'' :: (source ++ "')".toList) := rfl
  simp only [required?, htake, List.drop_left]
  rw [if_neg (by simpa using hname.1)]
  simp only [hsign, hcall, Text.after?_append, Option.bind_some, hmodule]
  rfl

/-! ## The word `type` -/

/-- Another name is not read as a keyword. -/
theorem keyword?_of_name {word name : Text} (hword : ∀ c ∈ word, Text.isIdentChar c = true)
    (hname : ∀ c ∈ name, Text.isIdentChar c = true) (hne : name ≠ word) {c : Char}
    (hc : Text.isIdentChar c = false) (r : Text) : keyword? word (name ++ c :: r) = none := by
  unfold keyword?
  split
  · rename_i d rest hafter
    split
    · rename_i hblank
      have hd : Text.isIdentChar d = false := by
        rw [Bool.eq_false_iff]
        intro hd
        rw [Text.isBlank_of_isIdentChar hd] at hblank
        cases hblank
      simp only [Text.after?] at hafter
      split at hafter
      · rename_i hprefix
        obtain ⟨more, hmore⟩ := List.isPrefixOf_iff_prefix.1 hprefix
        rw [← hmore, List.drop_left, Option.some.injEq] at hafter
        subst hafter
        exact absurd (Text.eq_of_append_cons hname hword hc hd hmore.symm) hne
      · cases hafter
    · rfl
  · rfl

/-- The word `type` at the start of a clause is a keyword only if it is the whole clause. -/
theorem keyword?_clauseText (h : s.WritableNames) (hbinds : s.Binds)
    (hne : s.clauseText ≠ "type".toList) (r : Text) :
    keyword? "type".toList (s.clauseText ++ ' ' :: r) = none := by
  have hword : ∀ c ∈ "type".toList, Text.isIdentChar c = true := by decide
  rcases clauseText_cases h hbinds with ⟨d, hd, heq | ⟨r', heq⟩⟩ | ⟨c, r', heq, hc⟩
  · rw [heq] at hne ⊢
    exact keyword?_of_name hword hd.2 hne (by decide) r
  · by_cases htype : d = "type".toList
    · rw [heq, htype, List.append_assoc, keyword?, Text.after?_append]
      rfl
    · rw [heq, List.append_assoc]
      exact keyword?_of_name hword hd.2 htype (by decide) _
  · have hne : c ≠ 't' := by
      rintro rfl
      exact absurd hc (by decide)
    simp [heq, keyword?, Text.after?, hne.symm]

/-! ## Characters that begin no literal -/

theorem quiet_of_isIdentChar {c : Char} (hc : Text.isIdentChar c = true) : Quiet c := by
  have hquotes : ∀ d ∈ ['/', '\'', '"', '\x60'], Text.isIdentChar d = false := by decide
  intro hmem
  rw [hquotes c hmem] at hc
  cases hc

theorem quiet_clauseText (h : s.WritableNames) : ∀ c ∈ s.clauseText, Quiet c := by
  intro c hc
  rcases of_mem_clauseText h hc with hident | hsign
  · exact quiet_of_isIdentChar hident
  · have hsigns : ∀ c ∈ ['*', ' ', ',', '\x7b', '\x7d'], Quiet c := by decide
    exact hsigns c hsign

/-! ## Statements -/

/-- The text that a rendered statement is read from: nothing is taken away but the semicolon. -/
theorem normalized_quoted (h : IsSource source) (front closing : Text)
    (hfront : ∀ c ∈ front, Quiet c) (hclosing : closing = [] ∨ closing = [')'])
    (hspaced : Text.Spaced (front ++ '\'' :: (source ++ '\'' :: (closing ++ [';'])))) :
    Text.dropRightWhile (· == ';') (Text.collapse (stripComments
      (front ++ '\'' :: (source ++ '\'' :: (closing ++ [';']))))) =
        front ++ '\'' :: (source ++ '\'' :: closing) := by
  have hcomments : stripComments (front ++ '\'' :: (source ++ '\'' :: (closing ++ [';']))) =
      front ++ '\'' :: (source ++ '\'' :: (closing ++ [';'])) := by
    refine stripComments_quoted hfront ?_ ?_ ?_
    · intro c hc
      refine ⟨(h.2 c hc).1, ?_⟩
      rintro rfl
      exact absurd (h.2 _ hc).2.2 (by decide)
    · rcases hclosing with rfl | rfl <;> decide
    · rcases hclosing with rfl | rfl <;> decide
  rw [hcomments, hspaced.collapse_eq]
  rcases hclosing with rfl | rfl <;> simp [Text.dropRightWhile]

/-- Where no quote follows `import`, the statement is not a side effect. -/
theorem sideEffect?_eq_none {c : Char} (hc : Quiet c) (hblank : Text.isBlank c = false) (r : Text) :
    sideEffect? ("import".toList ++ ' ' :: c :: r) = none := by
  rw [sideEffect?, Text.after?_append, Option.bind_some]
  exact source?_eq_none ((skipSpaces_space _).trans (skipSpaces_cons hblank r)) hc

/-- The word `from` and the source behind a clause. -/
def fromText (s : ImportStatement) : Text :=
  "from '".toList ++ (s.source ++ ['\''])

-- rewriting with this equation leaves the quoted word alone; unfolding the name evaluates it
theorem fromText_eq : s.fromText = "from '".toList ++ (s.source ++ ['\'']) := rfl

/-- What stands behind the word `import` in a statement with a clause. -/
def afterImport (s : ImportStatement) : Text :=
  (if s.isTypeOnly then "type ".toList else []) ++ (s.clauseText ++ ' ' :: s.fromText)

/-- The word `type` behind `import` is the mark of a statement about types, or else the whole
clause. -/
theorem keyword?_afterImport (h : s.WritableNames) (hbinds : s.Binds) :
    (s.isTypeOnly = true ∧
        keyword? "type".toList s.afterImport = some (s.clauseText ++ ' ' :: s.fromText)) ∨
      (s.isTypeOnly = false ∧ s.clauseText = "type".toList ∧
        keyword? "type".toList s.afterImport = some s.fromText) ∨
      (s.isTypeOnly = false ∧ keyword? "type".toList s.afterImport = none) := by
  cases htype : s.isTypeOnly with
  | true =>
    obtain ⟨c, r, hhead, hblank⟩ := (spaced_clauseText h hbinds).exists_head
    refine .inl ⟨rfl, ?_⟩
    rw [afterImport, htype, if_pos rfl, hhead]
    exact keyword?_append "type".toList hblank _
  | false =>
    rw [afterImport, htype, if_neg (by decide), List.nil_append]
    by_cases hword : s.clauseText = "type".toList
    · refine .inr (.inl ⟨rfl, hword, ?_⟩)
      rw [hword]
      exact keyword?_append "type".toList (by decide) _
    · exact .inr (.inr ⟨rfl, keyword?_clauseText h hbinds hword _⟩)

/-- A statement with a clause requires no module. -/
theorem required?_afterImport (h : s.WritableNames) (hbinds : s.Binds) :
    (keyword? "type".toList s.afterImport).bind required? = none ∧
      required? s.afterImport = none := by
  have hclause : '=' ∉ s.clauseText := by
    intro hmem
    rcases of_mem_clauseText h hmem with hident | hsign
    · exact absurd hident (by decide)
    · exact absurd hsign (by decide)
  have hrest : ∀ u : Text, '=' ∉ u → required? (u ++ s.fromText) = none := by
    intro u hu
    have hsplit : u ++ s.fromText = (u ++ "from ".toList) ++ '\'' :: (s.source ++ ['\'']) := by
      rw [List.append_assoc]
      rfl
    have hword : '=' ∉ "from ".toList := by decide
    rw [hsplit]
    refine required?_eq_none ?_ _
    rw [List.mem_append, not_or]
    exact ⟨hu, hword⟩
  constructor
  · rcases keyword?_afterImport h hbinds with ⟨-, heq⟩ | ⟨-, -, heq⟩ | ⟨-, heq⟩
    · have hnone := hrest (s.clauseText ++ [' ']) (by simp [hclause])
      rw [List.append_assoc] at hnone
      rw [heq]
      exact hnone
    · rw [heq]
      exact hrest [] (by simp)
    · rw [heq]
      rfl
  · have hnone := hrest ((if s.isTypeOnly then "type ".toList else []) ++ (s.clauseText ++ [' ']))
      (by cases s.isTypeOnly <;> simp [hclause])
    rw [List.append_assoc, List.append_assoc] at hnone
    exact hnone

/-- **The clause decides**: behind `import` and the mark of a type, the bindings of the clause are
read. -/
theorem ofClause?_afterImport (h : s.WritableNames) (hbinds : s.Binds) (hsource : IsSource s.source)
    (raw : Text) :
    ofClause? raw s.afterImport =
      withClause? { source := s.source, isTypeOnly := s.isTypeOnly, raw := raw } s.clauseText := by
  have hspaced := spaced_clauseText h hbinds
  obtain ⟨c, r, hhead, hblank⟩ := hspaced.exists_head
  have hclause : clauseFrom? (some ' ') [] (s.clauseText ++ ' ' :: s.fromText) =
      some (s.clauseText, s.source) := by
    refine clauseFrom?_append hsource (quiet_clauseText h) ?_ (some ' ') [] []
    obtain ⟨r, d, hlast, hd⟩ := hspaced.exists_last
    simp [hlast, hd]
  rcases keyword?_afterImport h hbinds with ⟨htype, heq⟩ | ⟨htype, hword, heq⟩ | ⟨htype, heq⟩
  · simp only [ofClause?, heq, Option.bind_some, hclause, hspaced.strip_eq, htype]
    rw [if_neg (by rw [hhead]; simp)]
  · -- the one word is the clause and no mark
    have hempty : clauseFrom? (some ' ') [] s.fromText = some ([], s.source) := by
      have hfrom : fromSource? (some ' ') s.fromText = some s.source :=
        fromSource?_quoted hsource (some ' ') (by decide) []
      have hcons : s.fromText = 'f' :: ("rom '".toList ++ (s.source ++ ['\''])) := rfl
      rw [hcons] at hfrom
      rw [hcons, clauseFrom?, List.takeWhile_cons_of_neg (by decide), skipSpaces_cons (by decide)]
      simp only [List.isEmpty_nil, if_true, hfrom]
      rfl
    simp only [ofClause?, heq, Option.bind_some, hempty, htype]
    rw [if_pos (by decide), hword]
  · have hunmarked : s.afterImport = s.clauseText ++ ' ' :: s.fromText := by
      rw [afterImport, htype, if_neg (by decide), List.nil_append]
    simp only [ofClause?, heq, Option.bind_none]
    simp only [hunmarked, Option.bind_some, hclause, hspaced.strip_eq, htype]

/-- The statements that can be written: all names are names, the source can stand in quotes, and
the statement binds something, or is for its side effects only, or requires a module as its default
binding.  A statement for its side effects is not about types. -/
structure Writable (s : ImportStatement) : Prop extends s.WritableNames where
  /-- The source can stand in quotes. -/
  source : IsSource s.source
  /-- One of the three forms. -/
  form : (s.isSideEffect = false ∧ s.isRequire = false ∧ s.Binds) ∨
    (s.isSideEffect = true ∧ s.isRequire = false ∧ s.isTypeOnly = false ∧
      s.defaultBinding = none ∧ s.namespaceBinding = none ∧ s.namedBindings = []) ∨
    (s.isSideEffect = false ∧ s.isRequire = true ∧ s.defaultBinding.isSome = true ∧
      s.namespaceBinding = none ∧ s.namedBindings = [])

/-- A statement with a clause, as written. -/
theorem render_clause (h : s.WritableNames) (heffect : s.isSideEffect = false)
    (hrequire : s.isRequire = false) :
    s.render s.defaultBinding s.namespaceBinding s.namedBindings =
      "import".toList ++ ' ' :: s.afterImport ++ [';'] := by
  have hpresent : ∀ {o : Option Text}, (∀ n ∈ o, Text.IsName n) →
      (if Text.isPresent o then o.toList else []) = o.toList := by
    intro o ho
    cases o with
    | none => rfl
    | some n =>
      obtain ⟨c, r, rfl, -⟩ := (ho n rfl).exists_cons
      rfl
  have hstarred : (if Text.isPresent s.namespaceBinding then
      s.namespaceBinding.toList.map ("* as ".toList ++ ·) else []) =
        s.namespaceBinding.toList.map ("* as ".toList ++ ·) := by
    have heq := hpresent h.namespaceBinding
    split
    · rfl
    · rename_i hnot
      rw [if_neg hnot] at heq
      rw [← heq]
      rfl
  have hrender : s.render s.defaultBinding s.namespaceBinding s.namedBindings =
      (if s.isTypeOnly then "import type ".toList else "import ".toList) ++ s.clauseText ++
        " from ".toList ++ ("'".toList ++ s.source ++ "'".toList) ++ ";".toList := by
    rw [render, heffect, hrequire, hpresent h.defaultBinding, hstarred]
    rfl
  rw [hrender, afterImport, fromText_eq]
  cases s.isTypeOnly <;>
    simp only [List.append_assoc, List.cons_append, List.nil_append, Bool.false_eq_true, if_false,
      if_true] <;>
    rfl

theorem isWord_quoted (h : IsSource source) {tail : Text}
    (htail : ∀ c ∈ tail, Text.isBlank c = false) :
    Text.IsWord ('\'' :: (source ++ '\'' :: tail)) := by
  refine ⟨List.cons_ne_nil _ _, ?_⟩
  intro c hc
  rw [List.mem_cons, List.mem_append, List.mem_cons] at hc
  rcases hc with rfl | hc | rfl | hc
  · decide
  · exact (h.2 c hc).2.2
  · decide
  · exact htail c hc

/-- The mark of a statement about types, in front of a text with single spaces. -/
theorem spaced_marked {t : Text} (ht : Text.Spaced t) (isTypeOnly : Bool) :
    Text.Spaced ("import".toList ++ ' ' :: ((if isTypeOnly then "type ".toList else []) ++ t)) := by
  cases isTypeOnly with
  | true =>
    exact .cons ⟨by decide, by decide⟩ (Text.Spaced.cons (w := "type".toList)
      ⟨by decide, by decide⟩ ht)
  | false => exact .cons ⟨by decide, by decide⟩ ht

theorem quiet_marked {t : Text} (ht : ∀ c ∈ t, Quiet c) (isTypeOnly : Bool) :
    ∀ c ∈ "import".toList ++ ' ' :: ((if isTypeOnly then "type ".toList else []) ++ t),
      Quiet c := by
  intro c hc
  rw [List.mem_append, List.mem_cons, List.mem_append] at hc
  have himport : ∀ c ∈ "import".toList, Quiet c := by decide
  have hmark : ∀ c ∈ (if isTypeOnly then "type ".toList else []), Quiet c := by
    cases isTypeOnly <;> decide
  rcases hc with hc | rfl | hc | hc
  · exact himport c hc
  · decide
  · exact hmark c hc
  · exact ht c hc

/-- Behind `import` something else than a quote follows. -/
theorem exists_marked {t : Text} (ht : Text.Spaced t) (hquiet : ∀ c ∈ t, Quiet c)
    (isTypeOnly : Bool) (rest : Text) :
    ∃ c r, (if isTypeOnly then "type ".toList else []) ++ (t ++ rest) = c :: r ∧
      Text.isBlank c = false ∧ Quiet c := by
  obtain ⟨c, r, rfl, hblank⟩ := ht.exists_head
  cases isTypeOnly with
  | true => exact ⟨'t', _, rfl, by decide, by decide⟩
  | false => exact ⟨c, _, rfl, hblank, hquiet c List.mem_cons_self⟩

/-- A statement with a clause is read back. -/
theorem parse?_render_clause (h : s.WritableNames) (hbinds : s.Binds) (hsource : IsSource s.source)
    (heffect : s.isSideEffect = false) (hrequire : s.isRequire = false) :
    parse? (s.render s.defaultBinding s.namespaceBinding s.namedBindings) = some { s with
      raw := s.render s.defaultBinding s.namespaceBinding s.namedBindings } := by
  have hspaced := spaced_clauseText h hbinds
  have hquiet := quiet_clauseText h
  rw [render_clause h heffect hrequire]
  have hnormal : Text.dropRightWhile (· == ';') (Text.collapse (stripComments
      ("import".toList ++ ' ' :: s.afterImport ++ [';']))) =
        "import".toList ++ ' ' :: s.afterImport := by
    have hfront : ∀ c ∈ s.clauseText ++ " from ".toList, Quiet c := by
      have hfrom : ∀ c ∈ " from ".toList, Quiet c := by decide
      intro c hc
      rcases List.mem_append.1 hc with hc | hc
      · exact hquiet c hc
      · exact hfrom c hc
    have hquoted : Text.Spaced ("from".toList ++
        ' ' :: '\'' :: (s.source ++ '\'' :: ([] ++ [';']))) :=
      .cons ⟨by decide, by decide⟩ (.word (isWord_quoted hsource (by decide)))
    have hwhole := spaced_marked (hspaced.space hquoted) s.isTypeOnly
    have hall := normalized_quoted hsource _ _ (quiet_marked hfront s.isTypeOnly) (.inl rfl)
      (by simp only [List.append_assoc, List.cons_append]; exact hwhole)
    rw [afterImport, fromText_eq]
    simp only [List.append_assoc, List.cons_append, List.nil_append] at hall ⊢
    exact hall
  obtain ⟨c, r, hhead, hblank, hc⟩ := exists_marked hspaced hquiet s.isTypeOnly
    (' ' :: s.fromText)
  rw [← afterImport] at hhead
  obtain ⟨htyped, huntyped⟩ := required?_afterImport h hbinds
  simp only [parse?, hnormal]
  rw [hhead, sideEffect?_eq_none hc hblank, keyword?_append _ hblank, ← hhead, Option.bind_some]
  simp only [htyped, huntyped]
  rw [ofClause?_afterImport h hbinds hsource, withClause?_clauseText h hbinds rfl rfl rfl]
  simp [heffect, hrequire]

/-- A statement for its side effects is read back. -/
theorem parse?_render_sideEffect (hsource : IsSource source) :
    parse? ("import '".toList ++ (source ++ "';".toList)) = some
      { source := source, isSideEffect := true
        raw := "import '".toList ++ (source ++ "';".toList) } := by
  have hspaced : Text.Spaced ("import".toList ++
      ' ' :: '\'' :: (source ++ '\'' :: ([] ++ [';']))) :=
    .cons ⟨by decide, by decide⟩ (.word (isWord_quoted hsource (by decide)))
  have hnormal := normalized_quoted hsource "import ".toList [] (by decide) (.inl rfl)
    hspaced
  have hsplit : "import '".toList ++ (source ++ "';".toList) =
      "import ".toList ++ '\'' :: (source ++ '\'' :: ([] ++ [';'])) := rfl
  have heffect : sideEffect? ("import ".toList ++ '\'' :: (source ++ ['\''])) = some source := by
    have hcons : "import ".toList ++ '\'' :: (source ++ ['\'']) =
        "import".toList ++ (' ' :: '\'' :: (source ++ ['\''])) := rfl
    rw [sideEffect?, hcons, Text.after?_append, Option.bind_some, source?_quoted hsource]
  rw [hsplit]
  simp only [parse?, hnormal, heffect]

/-- A required module is read back. -/
theorem parse?_render_require {name : Text} (hname : Text.IsName name) (hsource : IsSource source)
    (isTypeOnly : Bool) {raw : Text}
    (hraw : raw = "import".toList ++ ' ' :: ((if isTypeOnly then "type ".toList else []) ++
      (name ++ (" = require('".toList ++ (source ++ "');".toList))))) :
    parse? raw = some
      { source := source, defaultBinding := some name, isTypeOnly := isTypeOnly, isRequire := true
        raw := raw } := by
  have hspaced : Text.Spaced name := .word hname.isWord
  have hquiet : ∀ c ∈ name, Quiet c := fun c hc => quiet_of_isIdentChar (hname.2 c hc)
  have hnormal : Text.dropRightWhile (· == ';') (Text.collapse (stripComments raw)) =
      "import".toList ++ ' ' :: ((if isTypeOnly then "type ".toList else []) ++
        (name ++ (" = require('".toList ++ (source ++ "')".toList)))) := by
    have hfront : ∀ c ∈ name ++ " = require(".toList, Quiet c := by
      have hcall : ∀ c ∈ " = require(".toList, Quiet c := by decide
      intro c hc
      rcases List.mem_append.1 hc with hc | hc
      · exact hquiet c hc
      · exact hcall c hc
    have hquoted : Text.Spaced ("=".toList ++
        ' ' :: ("require(".toList ++ '\'' :: (source ++ '\'' :: ([')'] ++ [';'])))) :=
      .cons ⟨by decide, by decide⟩ (.word
        (Text.IsWord.append ⟨by decide, by decide⟩ (isWord_quoted hsource (by decide))))
    have hwhole := spaced_marked (hspaced.space hquoted) isTypeOnly
    have hall := normalized_quoted hsource _ _ (quiet_marked hfront isTypeOnly) (.inr rfl)
      (by simp only [List.append_assoc, List.cons_append]; exact hwhole)
    rw [hraw]
    simp only [List.append_assoc, List.cons_append, List.nil_append] at hall ⊢
    exact hall
  obtain ⟨c, r, hhead, hblank, hc⟩ := exists_marked hspaced hquiet isTypeOnly
    (" = require('".toList ++ (source ++ "')".toList))
  have hread := required?_append hname hsource
  simp only [parse?, hnormal]
  rw [hhead, sideEffect?_eq_none hc hblank, keyword?_append _ hblank, ← hhead, Option.bind_some]
  cases isTypeOnly with
  | true =>
    obtain ⟨d, r', hd, hdblank⟩ := hspaced.exists_head
    have hkeyword : keyword? "type".toList ("type ".toList ++
        (name ++ (" = require('".toList ++ (source ++ "')".toList)))) =
          some (name ++ (" = require('".toList ++ (source ++ "')".toList))) := by
      rw [hd]
      exact keyword?_append "type".toList hdblank _
    rw [if_pos rfl]
    simp only [hkeyword, Option.bind_some, hread]
  | false =>
    have hcall : " = require('".toList ++ (source ++ "')".toList) =
        ' ' :: '=' :: (" require('".toList ++ (source ++ "')".toList)) := rfl
    have hunmarked : (keyword? "type".toList
        (name ++ (" = require('".toList ++ (source ++ "')".toList)))).bind required? = none := by
      rw [hcall]
      by_cases htype : name = "type".toList
      · rw [htype, keyword?_append "type".toList (by decide), Option.bind_some]
        rfl
      · rw [keyword?_of_name (by decide) hname.2 htype (by decide)]
        rfl
    rw [if_neg (by decide), List.nil_append]
    simp only [hunmarked, hread]

/-- **A rendered import is read back**: whatever names it binds, words like `type`, `as` and `from`
among them, reading the text of a statement that can be written gives the statement again, but for
the text that it is kept with. -/
theorem parse?_render (h : s.Writable) :
    parse? (s.render s.defaultBinding s.namespaceBinding s.namedBindings) = some { s with
      raw := s.render s.defaultBinding s.namespaceBinding s.namedBindings } := by
  rcases h.form with ⟨heffect, hrequire, hbinds⟩ |
    ⟨heffect, hrequire, htype, hdefault, hnamespace, hnamed⟩ |
    ⟨heffect, hrequire, hdefault, hnamespace, hnamed⟩
  · exact parse?_render_clause h.toWritableNames hbinds h.source heffect hrequire
  · have hrender : s.render s.defaultBinding s.namespaceBinding s.namedBindings =
        "import '".toList ++ (s.source ++ "';".toList) := by
      simp [render, heffect]
    rw [hrender, parse?_render_sideEffect h.source, heffect, hrequire, htype, hdefault, hnamespace,
      hnamed]
  · obtain ⟨name, hname⟩ := Option.isSome_iff_exists.1 hdefault
    have hrender : s.render s.defaultBinding s.namespaceBinding s.namedBindings =
        "import".toList ++ ' ' :: ((if s.isTypeOnly then "type ".toList else []) ++
          (name ++ (" = require('".toList ++ (s.source ++ "');".toList)))) := by
      simp only [render, heffect, hrequire, hname, Option.getD_some]
      cases s.isTypeOnly <;> simp
    rw [parse?_render_require (h.defaultBinding name hname) h.source s.isTypeOnly hrender, heffect,
      hrequire, hname, hnamespace, hnamed]

/-- Keywords as names: a default binding `type`, a namespace `as`, and named bindings that are
called like the mark, behind the mark or not.  The source ends with a backslash. -/
theorem parse?_render_keywords :
    ∃ s : ImportStatement, s.Writable ∧
      s.render s.defaultBinding s.namespaceBinding s.namedBindings =
      "import type, * as as, \x7b type as as from, type, type type as as \x7d from 'a\\';".toList ∧
      parse? (s.render s.defaultBinding s.namespaceBinding s.namedBindings) = some { s with
        raw := s.render s.defaultBinding s.namespaceBinding s.namedBindings } := by
  let s : ImportStatement :=
    { source := "a\\".toList
      defaultBinding := some "type".toList
      namespaceBinding := some "as".toList
      namedBindings := [⟨"as".toList, some "from".toList, true⟩, ⟨"type".toList, none, false⟩,
        ⟨"type".toList, some "as".toList, true⟩] }
  have hs : s.Writable :=
    { defaultBinding := by rintro n ⟨⟩; exact ⟨by decide, by decide⟩
      namespaceBinding := by rintro n ⟨⟩; exact ⟨by decide, by decide⟩
      namedBindings := by
        intro b hb
        simp only [s, List.mem_cons, List.not_mem_nil, or_false] at hb
        rcases hb with rfl | rfl | rfl
        · exact ⟨⟨by decide, by decide⟩, by rintro n ⟨⟩; exact ⟨by decide, by decide⟩, by decide⟩
        · exact ⟨⟨by decide, by decide⟩, by simp, by decide⟩
        · exact ⟨⟨by decide, by decide⟩, by rintro n ⟨⟩; exact ⟨by decide, by decide⟩, by decide⟩
      source := ⟨by decide, by decide⟩
      form := .inl ⟨rfl, rfl, .inl rfl⟩ }
  exact ⟨s, hs, by decide, parse?_render hs⟩

/-- **What is not read back**: a statement for its side effects that is about types loses its mark,
as the text has no place for it, and an unmarked binding `type` with another local name is taken for
a marked one. -/
theorem not_parse?_render :
    (∃ s : ImportStatement, s = { source := "x".toList, isSideEffect := true, isTypeOnly := true } ∧
      parse? (s.render none none []) ≠ some { s with raw := s.render none none [] }) ∧
    ∃ (b : ImportBinding) (s : ImportStatement),
      b = { name := "type".toList, rename := some "foo".toList } ∧
        s = { source := "x".toList, namedBindings := [b] } ∧
        parse? (s.render none none [b]) ≠ some { s with raw := s.render none none [b] } ∧
        (parse? (s.render none none [b])).map (·.namedBindings) =
          some [{ name := "as foo".toList, isTypeOnly := true }] := by
  refine ⟨⟨_, rfl, ?_⟩, _, _, rfl, rfl, ?_, ?_⟩ <;> decide +kernel

end ModuleSurface.ImportStatement

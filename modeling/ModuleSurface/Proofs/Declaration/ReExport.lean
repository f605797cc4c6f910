import ModuleSurface.Proofs.Lexing.Lexemes
import ModuleSurface.Surface.Render

/-!
# Names of the module that are exported as a list

A list of names in curly brackets behind `export` is one statement, however it is laid out with
white space and block comments (`ReExport.segments_text`), and one declaration
(`ReExport.classify_text`).  The line for it has the tokens of the statement
(`ReExport.codeTokens_passthroughText`).
-/

namespace ModuleSurface

open ModuleSurface.Lexing
open ModuleSurface.Callable
open ModuleSurface.Statement

/-! ## Statements -/

/-- A name of the module, and the name it is exported under if that is another one. -/
structure Specifier where
  /-- The name. -/
  name : Word
  /-- The other name. -/
  rename : Option Word := none

namespace Specifier

/-- The tokens of the specifier. -/
def tokens (s : Specifier) : List Text :=
  match s.rename with
  | none => [s.name.1]
  | some other => [s.name.1, "as".toList, other.1]

/-- The tokens of several specifiers, with a comma behind each but the last, and behind that one if
`trailing` says so. -/
def listTokens (trailing : Bool) : List Specifier → List Text
  | [] => []
  | [s] => s.tokens ++ if trailing then [[',']] else []
  | s :: ss => s.tokens ++ [','] :: listTokens trailing ss

theorem name_mem_tokens (s : Specifier) : s.name.1 ∈ s.tokens := by
  unfold tokens
  split <;> exact List.mem_cons_self

theorem mem_listTokens (trailing : Bool) {s : Specifier} {ss : List Specifier} (h : s ∈ ss) :
    s.name.1 ∈ listTokens trailing ss := by
  fun_induction listTokens trailing ss with
  | case1 => cases h
  | case2 first =>
    rw [List.mem_singleton.1 h]
    exact List.mem_append_left _ first.name_mem_tokens
  | case3 first ss _ ih =>
    rcases List.mem_cons.1 h with rfl | h
    · exact List.mem_append_left _ s.name_mem_tokens
    · exact List.mem_append_right _ (List.mem_cons_of_mem _ (ih h))

/-- The tokens are words and commas. -/
theorem isIdentChar_of_mem_listTokens (trailing : Bool) (ss : List Specifier) :
    ∀ t ∈ listTokens trailing ss, (∀ c ∈ t, Text.isIdentChar c = true) ∨ t = [','] := by
  have hone : ∀ s : Specifier, ∀ t ∈ s.tokens, ∀ c ∈ t, Text.isIdentChar c = true := by
    intro s t ht
    unfold tokens at ht
    split at ht
    · rw [List.mem_singleton.1 ht]
      exact s.name.2.2
    · rename_i other _
      simp only [List.mem_cons, List.not_mem_nil, or_false] at ht
      rcases ht with rfl | rfl | rfl
      · exact s.name.2.2
      · decide
      · exact other.2.2
  fun_induction listTokens trailing ss with
  | case1 => simp
  | case2 s =>
    intro t ht
    rcases List.mem_append.1 ht with ht | ht
    · exact .inl (hone s t ht)
    · split at ht
      · exact .inr (List.mem_singleton.1 ht)
      · cases ht
  | case3 s ss _ ih =>
    intro t ht
    rcases List.mem_append.1 ht with ht | ht
    · exact .inl (hone s t ht)
    · rcases List.mem_cons.1 ht with ht | ht
      · exact .inr ht
      · exact ih t ht

end Specifier

/-- The keyword. -/
def exportWord : Word :=
  ⟨"export".toList, by decide, by decide⟩

/-- An export of names of the module itself, as it is laid out. -/
structure ReExport where
  /-- The names. -/
  specifiers : List Specifier
  /-- Is a comma behind the last one? -/
  trailing : Bool
  /-- What stands between the keyword and the bracket. -/
  front : List Lexeme
  /-- What stands in brackets. -/
  inside : List Lexeme
  /-- What stands behind the bracket, in the same line. -/
  behind : List Lexeme
  /-- Is a semicolon behind all this?  One in a later line stands alone. -/
  terminated : Bool
  /-- A comment in front of the bracket would hide it. -/
  front_blank : ∀ x ∈ front, x.isBlank = true
  /-- In brackets are the specifiers. -/
  inside_tokens : tokensOf inside = Specifier.listTokens trailing specifiers
  /-- Their words are apart. -/
  inside_apart : WordsApart inside
  /-- Behind the bracket nothing is said, and the line does not end. -/
  behind_space : ∀ x ∈ behind, x.token? = none ∧ x.text ≠ ['\n']

namespace ReExport

variable (r : ReExport)

/-- The brackets with what is in them and behind them. -/
def block : List Lexeme :=
  .sign ⟨'{', by decide⟩ :: (r.inside ++ .sign ⟨'}', by decide⟩ :: r.behind)

/-- The semicolon, if there is one. -/
def ending : List Lexeme :=
  if r.terminated then [.sign ⟨';', by decide⟩] else []

/-- The statement as written. -/
def text : Text :=
  written (.word exportWord :: (r.front ++ (r.block ++ r.ending)))

/-- The tokens of the statement without its semicolon. -/
def tokens : List Text :=
  ["export".toList, ['{']] ++ Specifier.listTokens r.trailing r.specifiers ++ [['}']]

/-! ## Lexemes -/

theorem isBrace_of_mem_inside {x : Lexeme} (hx : x ∈ r.inside) : x.isBrace = false := by
  cases x with
  | word w => rfl
  | blank c => rfl
  | comment body => rfl
  | sign c =>
    have hmem : [c.1] ∈ Specifier.listTokens r.trailing r.specifiers := by
      rw [← r.inside_tokens]
      exact List.mem_filterMap.2 ⟨_, hx, rfl⟩
    have hident := (not_isIdentChar_of_mem_signs c.2).1
    rcases Specifier.isIdentChar_of_mem_listTokens _ _ _ hmem with hword | hcomma
    · rw [hword c.1 (List.mem_singleton_self _)] at hident
      cases hident
    · have hc : c.1 = ',' := List.head_eq_of_cons_eq hcomma
      simp [Lexeme.isBrace, hc]

theorem isBrace_of_mem_behind {x : Lexeme} (hx : x ∈ r.behind) : x.isBrace = false := by
  have hnone := (r.behind_space x hx).1
  cases x with
  | sign c => cases hnone
  | word w => rfl
  | blank c => rfl
  | comment body => rfl

theorem isBlank_of_mem_front {c : Char} (hc : c ∈ written r.front) : Text.isBlank c = true := by
  obtain ⟨x, hx, hc⟩ := List.mem_flatMap.1 hc
  have hblank := r.front_blank x hx
  cases x with
  | blank d =>
    rw [List.mem_singleton.1 hc]
    exact d.2
  | word w => cases hblank
  | sign d => cases hblank
  | comment body => cases hblank

theorem tokensOf_export (xs : List Lexeme) :
    tokensOf (.word exportWord :: xs) = "export".toList :: tokensOf xs :=
  rfl

theorem tokensOf_block :
    tokensOf r.block = ['{'] :: Specifier.listTokens r.trailing r.specifiers ++ [['}']] := by
  have hbehind : tokensOf r.behind = [] := tokensOf_eq_nil fun x hx => (r.behind_space x hx).1
  simp [block, r.inside_tokens, hbehind, Lexeme.token?]

theorem isWord_of_token? {x : Lexeme} (h : x.token? = none) : x.isWord = false := by
  cases x with
  | word w => cases h
  | sign c => rfl
  | blank c => rfl
  | comment body => rfl

theorem wordsApart_block : WordsApart r.block := by
  have hbehind : WordsApart (.sign ⟨'}', by decide⟩ :: r.behind) :=
    .cons rfl (.of_not_isWord fun x hx => isWord_of_token? (r.behind_space x hx).1)
  refine .cons rfl (r.inside_apart.append hbehind ?_)
  rintro y ⟨⟩
  rfl

/-- Behind the keyword the words are apart from it. -/
theorem wordsApart_export {front xs : List Lexeme} (hfront : ∀ x ∈ front, x.isWord = false)
    (hxs : WordsApart xs) (hhead : ∀ x ∈ xs.head?, x.isWord = false) :
    WordsApart (.word exportWord :: (front ++ xs)) := by
  have hrest : WordsApart (front ++ xs) := (WordsApart.of_not_isWord hfront).append hxs hhead
  have hkeyword : WordsApart [.word exportWord] := List.isChain_singleton _
  refine hkeyword.append hrest ?_
  intro y hy
  cases front with
  | nil => exact hhead y hy
  | cons x front =>
    cases hy
    exact hfront _ List.mem_cons_self

/-- **The tokens of the statement.** -/
theorem codeTokens_text :
    codeTokens r.text = r.tokens ++ if r.terminated then [[';']] else [] := by
  have hfront : ∀ x ∈ r.front, x.token? = none ∧ x.isWord = false := by
    intro x hx
    have hblank := r.front_blank x hx
    cases x with
    | blank c => exact ⟨rfl, rfl⟩
    | word w => cases hblank
    | sign c => cases hblank
    | comment body => cases hblank
  have hending : WordsApart r.ending := by
    unfold ending
    split
    · exact List.isChain_singleton _
    · exact List.isChain_nil
  have hsign : ∀ y ∈ r.ending.head?, y.isWord = false := by
    unfold ending
    split
    · rintro y ⟨⟩
      rfl
    · rintro y ⟨⟩
  have hapart := wordsApart_export (fun x hx => (hfront x hx).2)
    (r.wordsApart_block.append hending hsign) (by rintro x ⟨⟩; rfl)
  have hnone : tokensOf r.front = [] := tokensOf_eq_nil fun x hx => (hfront x hx).1
  have hsigns : tokensOf r.ending = if r.terminated then [[';']] else [] := by
    unfold ending
    split <;> rfl
  rw [text, codeTokens_written hapart, tokensOf_export, tokensOf_append, tokensOf_append, hnone,
    hsigns, tokensOf_block, tokens]
  simp only [List.cons_append, List.nil_append, List.append_assoc]

/-! ## One statement -/

/-- What stands in front of the bracket. -/
def head : Text :=
  exportWord.1 ++ written r.front

/-- The statement without its semicolon. -/
def body : Text :=
  r.head ++ (('{' :: written r.inside ++ ['}']) ++ written r.behind)

theorem text_eq : r.text = r.body ++ written r.ending := by
  simp [text, body, head, block, Lexeme.text]

theorem exists_body_cons : ∃ t, r.body = 'e' :: t :=
  ⟨_, rfl⟩

theorem plain_of_mem_head {c : Char} (hc : c ∈ r.head) : Plain c ∧ c ≠ ';' := by
  have hword : ∀ d ∈ exportWord.1, Plain d ∧ d ≠ ';' := by decide
  rcases List.mem_append.1 hc with hc | hc
  · exact hword c hc
  · have hblank := r.isBlank_of_mem_front hc
    refine ⟨plain_of_isBlank hblank, ?_⟩
    rintro rfl
    exact absurd hblank (by decide)

/-- A newline behind the keyword does not end the statement. -/
theorem isIncomplete_of_head {a b : Text} (h : r.head = a ++ '\n' :: b) :
    isIncomplete a = true := by
  obtain ⟨back, rfl, hback⟩ : ∃ back, a = exportWord.1 ++ back ∧
      ∀ c ∈ back, Text.isBlank c = true := by
    rcases List.append_eq_append_iff.1 h with ⟨back, rfl, hfront⟩ | ⟨front, hword, hbehind⟩
    · refine ⟨back, rfl, fun c hc => r.isBlank_of_mem_front ?_⟩
      rw [hfront]
      exact List.mem_append_left _ hc
    · cases front with
      | nil =>
        rw [List.append_nil] at hword
        exact ⟨[], by rw [List.append_nil, hword], by simp⟩
      | cons c front =>
        -- there is no newline in the keyword
        obtain rfl : '\n' = c := (List.cons.inj hbehind).1
        have hmem : '\n' ∈ exportWord.1 := by simp [hword]
        exact absurd hmem (by decide)
  have hplain : ∀ c ∈ exportWord.1 ++ back, Plain c := by
    intro c hc
    rcases List.mem_append.1 hc with hc | hc
    · exact plain_of_isIdentChar (exportWord.2.2 c hc)
    · exact plain_of_isBlank (hback c hc)
  have hstrip : Text.stripRight (exportWord.1 ++ back) = exportWord.1 :=
    Text.dropRightWhile_append_of_last (c := 't') rfl (by decide) hback
  have hlast : (exportWord.1.getLast? == some '/') = false := by decide
  have hopen : openWords.contains (lastWord exportWord.1) = true := by decide
  have hdecorators : (stripDecorators exportWord.1).isEmpty = false := by
    rw [stripDecorators_eq (c := 'e') rfl (by decide)]
    rfl
  have hsigns : ["++".toList, "--".toList].any (·.isSuffixOf exportWord.1) = false := by decide
  rw [isIncomplete, stripComments_of_plain hplain, hstrip]
  simp only [hdecorators, hsigns, hlast, hopen, Bool.false_and, Bool.or_true, Bool.false_eq_true,
    if_false]

/-- Nothing in the statement ends one. -/
theorem exists_reads_body (more : Text) :
    ∃ vs, Reads {} [] r.body more 0 vs ∧ ∀ v ∈ vs, Unended v := by
  obtain ⟨vs, hreads, hvs⟩ := exists_reads_block (fun c hc => (r.plain_of_mem_head hc).1)
    (fun x hx => r.isBrace_of_mem_inside hx) (fun x hx => r.isBrace_of_mem_behind hx) more
  refine ⟨vs, hreads, fun v hv htop => ?_⟩
  rcases hvs v hv htop with ⟨a, b, hhead, hpast⟩ | hc | hc | ⟨x, hx, hc⟩
  · refine ⟨(r.plain_of_mem_head (c := v.char) (by simp [hhead])).2, fun hc => ?_⟩
    rw [hc] at hhead
    rw [hpast, List.reverse_reverse]
    exact endsBefore_of_incomplete (r.isIncomplete_of_head hhead) _
  · rw [hc]
    exact ⟨by decide, fun h => absurd h (by decide)⟩
  · rw [hc]
    exact ⟨by decide, fun h => absurd h (by decide)⟩
  · obtain ⟨hnone, hline⟩ := r.behind_space x hx
    cases x with
    | word w => cases hnone
    | sign c => cases hnone
    | comment body => cases hc
    | blank c =>
      rw [List.mem_singleton.1 hc]
      refine ⟨?_, fun h => absurd (congrArg ([·]) h) hline⟩
      intro h
      have hblank := c.2
      rw [h] at hblank
      exact absurd hblank (by decide)

theorem isIncomplete_body : isIncomplete r.body = false := by
  have hcode : stripComments r.body = (r.head ++ '{' :: r.inside.flatMap Lexeme.kept) ++ ['}'] ++
      r.behind.flatMap Lexeme.kept := by
    have hbody : r.body = written (.word exportWord :: (r.front ++ r.block)) := by
      simp [body, head, block, Lexeme.text]
    have hfront : r.front.flatMap Lexeme.kept = written r.front := by
      refine List.flatMap_congr fun x hx => ?_
      have hblank := r.front_blank x hx
      cases x with
      | comment body => cases hblank
      | word w => rfl
      | sign c => rfl
      | blank c => rfl
    rw [hbody, (codeOnly_written _).2.1]
    simp [block, head, hfront, Lexeme.kept, Lexeme.text]
  refine isIncomplete_of_closer (b := .brace) hcode ?_ (c := 'e') rfl (by decide) (by decide)
  intro c hc
  obtain ⟨x, hx, hc⟩ := List.mem_flatMap.1 hc
  have hnone := (r.behind_space x hx).1
  cases x with
  | word w => cases hnone
  | sign d => cases hnone
  | comment body => cases hc
  | blank d =>
    rw [List.mem_singleton.1 hc]
    exact d.2

/-- **The list is one statement**, however it is laid out. -/
theorem segments_text :
    segments .module (r.text ++ ['\n']) = ⟨[.segment ⟨0, r.text, none, []⟩], .finished {}⟩ := by
  obtain ⟨t, ht⟩ := r.exists_body_cons
  have hbegins : ∀ more, Begins .module none 'e' more := fun more _ =>
    ⟨by decide, by decide, rfl, rfl⟩
  have hreads := r.exists_reads_body
  have hcomplete := r.isIncomplete_body
  rw [text_eq, ending]
  rw [ht] at hreads hcomplete ⊢
  cases r.terminated with
  | false =>
    obtain ⟨vs, hvs, hgoes⟩ := hreads ['\n']
    simpa using segments_of_newline hvs (hbegins _) hgoes hcomplete
  | true =>
    obtain ⟨vs, hvs, hgoes⟩ := hreads [';', '\n']
    simpa [Lexeme.text] using segments_of_semicolon hvs (hbegins _) hgoes (by decide)

/-! ## One declaration -/

/-- What is exported, from the bracket on. -/
def clause : Text :=
  Text.stripRight (written (r.block ++ r.ending))

/-- What the statement declares. -/
def declaration : Declaration :=
  { kind := .exports
    raw := Text.stripRight r.text
    start := 0
    stop := (Text.stripRight r.text).length
    isExported := true
    source := Declaration.sourceFrom? none r.clause
    value := some (Text.stripSemicolon r.clause) }

theorem exists_clause_cons : ∃ t, r.clause = '{' :: t :=
  ⟨_, Text.dropRightWhile_cons (by decide) _⟩

theorem stripRight_text : Text.stripRight r.text = r.head ++ r.clause := by
  obtain ⟨t, ht⟩ := r.exists_clause_cons
  have hne : Text.stripRight (written (r.block ++ r.ending)) ≠ [] := by
    rw [← clause, ht]
    exact List.cons_ne_nil _ _
  have htext : r.text = r.head ++ written (r.block ++ r.ending) := by
    simp [text, head, Lexeme.text]
  rw [htext]
  exact Text.dropRightWhile_append_left hne r.head

theorem classify_text :
    Declaration.classify (Text.stripRight r.text) 0 none = .one r.declaration := by
  obtain ⟨t, ht⟩ := r.exists_clause_cons
  have hfront : Text.stripLeft (written r.front ++ '{' :: t) = '{' :: t := by
    rw [Text.stripLeft, List.dropWhile_append_of_pos fun c hc => r.isBlank_of_mem_front hc,
      List.dropWhile_cons_of_neg (by decide)]
  have htext : Text.stripRight r.text = exportWord.1 ++ (written r.front ++ '{' :: t) := by
    rw [stripRight_text, head, ht, List.append_assoc]
  have hdecorators : stripDecorators (Text.stripRight r.text) = Text.stripRight r.text := by
    rw [htext]
    exact stripDecorators_eq (c := 'e') rfl (by decide)
  have hdrop : (Text.stripRight r.text).drop 6 = written r.front ++ '{' :: t := by
    rw [htext]
    exact List.drop_left' rfl
  have hnext : (written r.front ++ '{' :: t).head?.any Text.isIdentChar = false := by
    cases hfront : written r.front with
    | nil => exact (by decide : Text.isIdentChar '{' = false)
    | cons c front =>
      exact Text.isIdentChar_of_isBlank (r.isBlank_of_mem_front (hfront ▸ List.mem_cons_self))
  have hkeyword : Text.startsWithName "export".toList (Text.stripRight r.text) = true := by
    have hprefix : "export".toList.isPrefixOf (Text.stripRight r.text) = true :=
      List.isPrefixOf_iff_prefix.2 ⟨_, htext.symm⟩
    have hlength : "export".toList.length = 6 := rfl
    rw [Text.startsWithName, hprefix, hlength, hdrop, hnext]
    rfl
  have hpassthrough : ∀ base, Declaration.ofPassthrough? ('{' :: t) base =
      some { base with
        kind := .exports
        isTypeOnly := false
        source := Declaration.sourceFrom? none ('{' :: t)
        value := some (Text.stripSemicolon ('{' :: t)) } := by
    intro base
    rfl
  rw [Declaration.classify]
  simp only [hdecorators, hkeyword, if_true, hdrop,
    stripDecorators_eq hfront (by decide : '{' ≠ '@'), hpassthrough]
  rw [declaration, ht, Nat.zero_add]

/-- Behind a bracket and the comments behind it there is only white space. -/
theorem exists_last {xs : List Lexeme} (hxs : ∀ x ∈ xs, x.token? = none) :
    ∃ t back, '}' :: written xs = t ++ back ∧ (∀ c ∈ back, Text.isBlank c = true) ∧
      ∃ c, t.getLast? = some c ∧ Text.isBlank c = false ∧ c ≠ ';' := by
  induction xs using List.reverseRecOn with
  | nil => exact ⟨['}'], [], rfl, by simp, '}', rfl, by decide, by decide⟩
  | append_singleton xs x ih =>
    obtain ⟨t, back, heq, hback, hlast⟩ := ih fun y hy => hxs y (List.mem_append_left _ hy)
    have hnone := hxs x (by simp)
    have hwritten : '}' :: written (xs ++ [x]) = t ++ back ++ x.text := by
      rw [written_append, ← List.cons_append, heq]
      simp
    cases x with
    | word w => cases hnone
    | sign c => cases hnone
    | blank c =>
      refine ⟨t, back ++ [c.1], by rw [hwritten, List.append_assoc]; rfl, ?_, hlast⟩
      intro d hd
      rcases List.mem_append.1 hd with hd | hd
      · exact hback d hd
      · rw [List.mem_singleton.1 hd]
        exact c.2
    | comment body =>
      refine ⟨_, [], hwritten.trans (List.append_nil _).symm, by simp, '/', ?_, by decide,
        by decide⟩
      rw [Lexeme.text, ← List.append_assoc, List.getLast?_append]
      rfl

/-- White space at the end of the clause is not part of what is exported. -/
theorem exists_stripSemicolon_clause :
    ∃ back, (∀ c ∈ back, Text.isBlank c = true) ∧
      written r.block = Text.stripSemicolon r.clause ++ back := by
  obtain ⟨t, back, heq, hback, c, hlast, hblank, hsemicolon⟩ :=
    exists_last fun x hx => (r.behind_space x hx).1
  have hblock : written r.block = '{' :: written r.inside ++ t ++ back := by
    rw [List.append_assoc, ← heq]
    simp [block, Lexeme.text]
  have hinside : ('{' :: written r.inside ++ t).getLast? = some c := by
    rw [List.getLast?_append, hlast]
    rfl
  obtain ⟨rest, hclause, hrest⟩ : ∃ rest, r.clause = '{' :: written r.inside ++ t ++ rest ∧
      ∀ d ∈ rest, (Text.isBlank d || d == ';') = true := by
    rw [clause, written_append, hblock, ending]
    cases r.terminated with
    | false =>
      refine ⟨[], ?_, by simp⟩
      rw [List.append_nil, if_neg Bool.false_ne_true, written_nil, List.append_nil]
      exact Text.dropRightWhile_append_of_last hinside hblank hback
    | true =>
      refine ⟨back ++ [';'], ?_, ?_⟩
      · rw [← List.append_assoc]
        exact Text.stripRight_concat (by decide) _
      · intro d hd
        rcases List.mem_append.1 hd with hd | hd
        · simp [hback d hd]
        · simp [List.mem_singleton.1 hd]
  have hstrip : Text.stripSemicolon r.clause = '{' :: written r.inside ++ t := by
    rw [Text.stripSemicolon, hclause, List.cons_append, List.cons_append,
      Text.stripLeft_cons (by decide), ← List.cons_append, ← List.cons_append]
    exact Text.dropRightWhile_append_of_last hinside (by simp [hblank, hsemicolon]) hrest
  exact ⟨back, hback, by rw [hstrip, hblock]⟩

/-- **The line for the list.**  It has the tokens of the statement, whether a semicolon ended that
or not, and ends outside everything. -/
theorem codeTokens_passthroughText :
    codeTokens r.declaration.passthroughText = r.tokens ++ [[';']] ∧
      EndsOutside r.declaration.passthroughText := by
  obtain ⟨back, hback, hvalue⟩ := r.exists_stripSemicolon_clause
  have hcollapse : Text.collapse (Text.stripSemicolon r.clause) =
      written (collapsedFrom true r.block) := by
    rw [← Text.collapse_append_blanks hback, ← hvalue, collapse_written]
  let line : List Lexeme :=
    .word exportWord :: ([.space] ++
      (collapsedFrom true r.block ++ [.sign ⟨';', by decide⟩]))
  have hline : r.declaration.passthroughText = written line := by
    have htype : r.declaration.isTypeOnly = false := rfl
    have hclause : r.declaration.value.getD [] = Text.stripSemicolon r.clause := rfl
    have hkeyword : "export ".toList = (Lexeme.word exportWord).text ++ written [.space] := by
      decide
    have hsemicolon : ";".toList = written [.sign ⟨';', by decide⟩] := rfl
    simp only [Declaration.passthroughText, htype, Bool.false_and, Bool.false_eq_true, if_false,
      hclause, hcollapse, hkeyword, hsemicolon, line, written_cons, written_append,
      List.append_assoc]
  have hapart : WordsApart line := by
    refine wordsApart_export (by simp [Lexeme.isWord, Lexeme.space]) ?_ (by rintro x ⟨⟩; rfl)
    refine (r.wordsApart_block.collapsedFrom true).append (List.isChain_singleton _) ?_
    rintro y ⟨⟩
    rfl
  refine ⟨?_, ?_⟩
  · have hsemicolon : tokensOf [.sign ⟨';', by decide⟩] = [[';']] := rfl
    have hspace : tokensOf [.space] = [] := rfl
    rw [hline, codeTokens_written hapart, tokensOf_export, tokensOf_append, tokensOf_append, hspace,
      tokensOf_collapsedFrom, hsemicolon, tokensOf_block, tokens]
    simp only [List.cons_append, List.nil_append, List.append_assoc]
  · rw [hline]
    exact (codeOnly_written line).2.2

end ReExport

/-! ## Modules that are named -/

namespace Declaration

theorem fromModule?_of_unquoted {t : Text} (h : ∀ c ∈ t, c ≠ '\'' ∧ c ≠ '"') :
    fromModule? t = none := by
  unfold fromModule?
  split
  · rfl
  · rename_i rest hafter
    split
    · rfl
    · rename_i quote line hline
      have hrest : rest <:+ t := by
        rw [Text.after?] at hafter
        split at hafter
        · cases hafter
          exact List.drop_suffix _ _
        · cases hafter
      have hquote : quote ∈ Text.stripLeft rest := by
        rw [hline]
        exact List.mem_cons_self
      have hmem : quote ∈ t := hrest.subset ((Text.stripLeft_suffix rest).subset hquote)
      simp [h quote hmem]

/-- Without quotation marks no module is named. -/
theorem sourceFrom?_of_unquoted {before : Option Char} {t : Text}
    (h : ∀ c ∈ t, c ≠ '\'' ∧ c ≠ '"') : sourceFrom? before t = none := by
  induction t generalizing before with
  | nil => rfl
  | cons c t ih =>
    rw [sourceFrom?, fromModule?_of_unquoted h, ih fun d hd => h d (List.mem_cons_of_mem _ hd)]
    simp

end Declaration

end ModuleSurface

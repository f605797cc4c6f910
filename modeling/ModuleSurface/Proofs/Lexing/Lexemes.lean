import ModuleSurface.Proofs.Lexing.Joined
import ModuleSurface.Proofs.Statement.Single
import ModuleSurface.Proofs.Text.Collapse

/-!
# Words and signs with white space and comments between them

Code without literals is a list of lexemes: words, signs, white space and block comments.  Its
tokens are the words and the signs, if no word stands directly behind another one
(`codeTokens_written`).  Collapsing such a text gives lexemes with the same tokens
(`codeTokens_collapse`); with a line comment among them it would not, as the comment goes on where
the line break was.
-/

namespace ModuleSurface.Lexing

open Cursor

/-! ## Lexemes -/

/-- Identifier characters, at least one. -/
abbrev Word :=
  { w : Text // w ≠ [] ∧ ∀ c ∈ w, Text.isIdentChar c = true }

/-- The signs that stand between words. -/
def signs : Text :=
  ['{', '}', ',', ';']

/-- What stands between the delimiters of a block comment. -/
abbrev CommentBody :=
  { t : Text // Text.containsText t "*/".toList = false }

/-- A piece of code without literals. -/
inductive Lexeme where
  /-- A word. -/
  | word (w : Word)
  /-- A sign. -/
  | sign (c : { c : Char // c ∈ signs })
  /-- A character of white space. -/
  | blank (c : { c : Char // Text.isBlank c = true })
  /-- A block comment. -/
  | comment (body : CommentBody)
  deriving DecidableEq

namespace Lexeme

/-- The lexeme as written. -/
def text : Lexeme → Text
  | word w => w.1
  | sign c => [c.1]
  | blank c => [c.1]
  | comment body => "/*".toList ++ body.1 ++ "*/".toList

/-- The lexeme as a token.  White space and comments are none. -/
def token? : Lexeme → Option Text
  | word w => some w.1
  | sign c => some [c.1]
  | blank _ | comment _ => none

/-- What is left of the lexeme without comments. -/
def kept : Lexeme → Text
  | comment _ => []
  | x => x.text

/-- What is left of the lexeme when all but code is blanked. -/
def shown : Lexeme → Text
  | comment body => (comment body).text.map fun c => if c == '\n' then c else ' '
  | x => x.text

/-- Is the lexeme a word? -/
def isWord : Lexeme → Bool
  | word _ => true
  | _ => false

/-- Is the lexeme a character of white space? -/
def isBlank : Lexeme → Bool
  | blank _ => true
  | _ => false

/-- Is the lexeme a curly bracket? -/
def isBrace : Lexeme → Bool
  | sign c => c.1 == '{' || c.1 == '}'
  | _ => false

theorem text_ne_nil (x : Lexeme) : x.text ≠ [] := by
  cases x with
  | word w => exact w.2.1
  | sign c => exact List.cons_ne_nil _ _
  | blank c => exact List.cons_ne_nil _ _
  | comment body => exact List.cons_ne_nil _ _

end Lexeme

/-- The lexemes one behind the other. -/
def written (xs : List Lexeme) : Text :=
  xs.flatMap Lexeme.text

/-- The tokens among the lexemes. -/
def tokensOf (xs : List Lexeme) : List Text :=
  xs.filterMap Lexeme.token?

/-- No word stands directly behind another one. -/
def WordsApart (xs : List Lexeme) : Prop :=
  xs.IsChain fun x y => x.isWord = true → y.isWord = false

instance (xs : List Lexeme) : Decidable (WordsApart xs) :=
  inferInstanceAs (Decidable (xs.IsChain _))

/-- The tokens in the code of a text. -/
def codeTokens (t : Text) : List Text :=
  Text.tokens (codeOnly t)

@[simp] theorem written_nil : written [] = [] := rfl

@[simp] theorem written_cons (x : Lexeme) (xs : List Lexeme) :
    written (x :: xs) = x.text ++ written xs := rfl

@[simp] theorem written_append (xs ys : List Lexeme) :
    written (xs ++ ys) = written xs ++ written ys :=
  List.flatMap_append

/-- No lexeme ends with a backslash. -/
theorem getLast?_written (xs : List Lexeme) : (written xs).getLast? ≠ some '\\' := by
  induction xs using List.reverseRecOn with
  | nil => simp
  | append_singleton xs x _ =>
    have hlast : x.text.getLast? ≠ some '\\' := by
      intro h
      have hmem := List.mem_of_getLast? h
      cases x with
      | word w => exact absurd (w.2.2 _ hmem) (by decide)
      | sign c =>
        have hc := c.2
        rw [← List.mem_singleton.1 hmem] at hc
        exact absurd hc (by decide)
      | blank c =>
        have hc := c.2
        rw [← List.mem_singleton.1 hmem] at hc
        exact absurd hc (by decide)
      | comment body =>
        rw [Lexeme.text, List.getLast?_append] at h
        cases h
    rw [written_append, written_cons, written_nil, List.append_nil,
      List.getLast?_append_of_ne_nil _ x.text_ne_nil]
    exact hlast

@[simp] theorem tokensOf_nil : tokensOf [] = [] := rfl

@[simp] theorem tokensOf_cons (x : Lexeme) (xs : List Lexeme) :
    tokensOf (x :: xs) = x.token?.toList ++ tokensOf xs := by
  rw [tokensOf, List.filterMap_cons]
  cases x.token? <;> rfl

@[simp] theorem tokensOf_append (xs ys : List Lexeme) :
    tokensOf (xs ++ ys) = tokensOf xs ++ tokensOf ys :=
  List.filterMap_append

theorem tokensOf_eq_nil {xs : List Lexeme} (h : ∀ x ∈ xs, x.token? = none) : tokensOf xs = [] :=
  List.filterMap_eq_nil_iff.2 h

namespace WordsApart

variable {x : Lexeme} {xs ys : List Lexeme}

theorem cons (hx : x.isWord = false) (h : WordsApart xs) : WordsApart (x :: xs) := by
  refine List.isChain_cons.2 ⟨fun y _ hword => ?_, h⟩
  rw [hx] at hword
  cases hword

theorem of_not_isWord (h : ∀ x ∈ xs, x.isWord = false) : WordsApart xs := by
  induction xs with
  | nil => exact List.isChain_nil
  | cons x xs ih =>
    obtain ⟨hx, hxs⟩ := List.forall_mem_cons.1 h
    exact .cons hx (ih hxs)

theorem append (hxs : WordsApart xs) (hys : WordsApart ys) (h : ∀ y ∈ ys.head?, y.isWord = false) :
    WordsApart (xs ++ ys) :=
  List.isChain_append.2 ⟨hxs, hys, fun _ _ y hy _ => h y hy⟩

end WordsApart

/-! ## Comments -/

theorem blankedFrom_nil (position : Nat) (t : Text) :
    blankedFrom position [] t = t.map fun c => if c == '\n' then c else ' ' := by
  induction t generalizing position with
  | nil => rfl
  | cons c t ih => rw [blankedFrom, ih, List.map_cons]

namespace Cursor

/-- What is read without a visit is blanked. -/
theorem blanked_unvisited {p q : Cursor} {read : Text} (hvisits : p.visits = q.visits)
    (hrest : p.rest = read ++ q.rest) (hposition : q.position = p.position + read.length) :
    p.blanked = (read.map fun c => if c == '\n' then c else ' ') ++ q.blanked := by
  have hlater : ∀ v ∈ q.visits, p.position + read.length ≤ v.index := by
    rw [← hposition]
    exact (pairwise_visitsFrom q.state q.past q.rest q.position).1
  have happend : blankedFrom p.position ([] ++ q.visits) (read ++ q.rest) = _ :=
    blankedFrom_append .nil (by simp) (by simp) hlater q.rest
  rw [List.nil_append, blankedFrom_nil] at happend
  rw [blanked, blanked, hvisits, hrest, hposition, happend]

theorem visit?_blockComment {r : Cursor} (hr : r.state.context = .blockComment) :
    r.visit? = none := by
  obtain ⟨s, past, rest, position⟩ := r
  cases rest with
  | nil => rfl
  | cons c t =>
    have hcode : s.inCode = false := by
      rw [State.inCode, show s.context = .blockComment from hr]
      rfl
    simp [visit?, State.readsCode, hcode]

/-- A step into a comment or out of one is not kept. -/
theorem Next.code_eq {p q : Cursor} (h : Next p q)
    (hcomment : p.state.context.isComment = true ∨ q.state.context.isComment = true) :
    p.pass.code = q.pass.code := by
  cases h with
  | @step s s' past c r position k hstep =>
    have hdropped : (!s.context.isComment && !s'.context.isComment) = false := by
      rcases hcomment with h | h
      · simp [show s.context.isComment = true from h]
      · simp [show s'.context.isComment = true from h]
    rw [Next.moments_eq hstep]
    simp only [Pass.code, List.filter_cons, hdropped, Bool.false_eq_true, if_false]

end Cursor

/-- A block comment in code is read without a visit, and not kept. -/
theorem exists_reads_comment {s : State} (hs : s.inCode = true) (body : CommentBody)
    (past rest : Text) (position : Nat) :
    Reads s past (Lexeme.comment body).text rest position [] ∧
      (Cursor.pass ⟨s, past, (Lexeme.comment body).text ++ rest, position⟩).code =
        (Cursor.pass ⟨s, (Lexeme.comment body).text.reverse ++ past, rest,
          position + (Lexeme.comment body).text.length⟩).code := by
  obtain ⟨r, hr, hopen, hclose⟩ := Comment.exists_steps body.2 hs past rest position
  have hinside : r.state.context.isComment = true := by
    rw [hr]
    rfl
  have hdelimiter :
      visit? ⟨s, past, (Lexeme.comment body).text ++ rest, position⟩ = none := by
    show visit? ⟨s, past, '/' :: '*' :: _, position⟩ = none
    simp [visit?, State.readsCode]
  refine ⟨⟨_, .cons hopen (.single hclose), ?_⟩, ?_⟩
  · rw [List.filterMap_cons, hdelimiter, List.filterMap_cons, visit?_blockComment hr]
    rfl
  · exact (hopen.code_eq (.inr hinside)).trans (hclose.code_eq (.inl hinside))

/-! ## Code -/

/-- A pass comes from `p` to `q`.  In front of what is left of the text at `q`, it leaves `shown`
when all but code is blanked, and `kept` without comments. -/
structure Leads (p q : Cursor) (shown kept : Text) : Prop where
  /-- The way. -/
  run : ∃ ps, Run p ps q
  /-- What is blanked. -/
  blanked : p.blanked = shown ++ q.blanked
  /-- What is kept. -/
  code : p.pass.code = kept ++ q.pass.code

namespace Leads

variable {p q r : Cursor}

theorem refl (p : Cursor) : Leads p p [] [] :=
  ⟨⟨[], .refl p⟩, rfl, rfl⟩

theorem trans {shown kept shown' kept' : Text} (h : Leads p q shown kept)
    (h' : Leads q r shown' kept') : Leads p r (shown ++ shown') (kept ++ kept') := by
  obtain ⟨ps, hps⟩ := h.run
  obtain ⟨qs, hqs⟩ := h'.run
  refine ⟨⟨_, hps.append hqs⟩, ?_, ?_⟩
  · rw [h.blanked, h'.blanked, List.append_assoc]
  · rw [h.code, h'.code, List.append_assoc]

end Leads

/-- The character leads from outside everything to outside everything. -/
def Outer (c : Char) : Prop :=
  Plain c ∨ c = Bracket.brace.opener ∨ c = Bracket.brace.closer

theorem outer_of_mem_signs {c : Char} (hc : c ∈ signs) : Outer c := by
  unfold Outer
  revert c
  decide

theorem exists_leads_char {p : Cursor} (hp : p.state.context = .normal) {c : Char} {rest : Text}
    (hrest : p.rest = c :: rest) (hc : Outer c) :
    ∃ q : Cursor, q.state.context = .normal ∧ q.rest = rest ∧ Leads p q [c] [c] := by
  obtain ⟨s, past, t, position⟩ := p
  obtain rfl : t = c :: rest := hrest
  have hcode : ∀ {s : State}, s.context = .normal → s.inCode = true := by
    intro s hs
    rw [State.inCode, hs]
    rfl
  obtain ⟨s', hs', hvisit, hstep⟩ : ∃ s' : State, s'.context = .normal ∧
      visit? ⟨s, past, c :: rest, position⟩ = some ⟨position, past, c, rest, s⟩ ∧
        s.step past c rest position = .ok (1, s') := by
    have hexpr : s.closesExpr c = false := by
      simp [State.closesExpr, show s.context = .normal from hp]
    rcases hc with hc | rfl | rfl
    · exact ⟨s, hp, visit?_of_plain (hcode hp) hc _ _ _, State.step_of_plain (hcode hp) hc _ _ _⟩
    · exact ⟨s.openBracket .brace position, hp, visit?_bracket (hcode hp) (.inl rfl) hexpr _ _ _,
        State.step_opener (hcode hp) .brace _ _ _⟩
    · refine ⟨s.closeBracket .brace, ?_, visit?_bracket (hcode hp) (.inr rfl) hexpr _ _ _,
        State.step_closer (hcode hp) hexpr _ _ _⟩
      unfold State.closeBracket
      split <;> exact hp
  exact ⟨⟨s', c :: past, rest, position + 1⟩, hs', rfl, ⟨_, .single (.step hstep)⟩,
    blanked_visit hvisit hstep, code_of_step hstep (hcode hp) (hcode hs')⟩

theorem exists_leads_chars {p : Cursor} (hp : p.state.context = .normal) {t rest : Text}
    (hrest : p.rest = t ++ rest) (ht : ∀ c ∈ t, Outer c) :
    ∃ q : Cursor, q.state.context = .normal ∧ q.rest = rest ∧ Leads p q t t := by
  induction t generalizing p with
  | nil => exact ⟨p, hp, hrest, .refl p⟩
  | cons c t ih =>
    obtain ⟨hc, ht⟩ := List.forall_mem_cons.1 ht
    obtain ⟨q, hq, hqrest, hfirst⟩ := exists_leads_char hp hrest hc
    obtain ⟨r, hr, hrrest, hothers⟩ := ih hq hqrest ht
    exact ⟨r, hr, hrrest, hfirst.trans hothers⟩

/-- A lexeme outside everything leads to the lexemes behind it. -/
theorem Lexeme.exists_leads {p : Cursor} (hp : p.state.context = .normal) (x : Lexeme) {rest : Text}
    (hrest : p.rest = x.text ++ rest) :
    ∃ q : Cursor, q.state.context = .normal ∧ q.rest = rest ∧ Leads p q x.shown x.kept := by
  cases x with
  | word w => exact exists_leads_chars hp hrest fun c hc => .inl (plain_of_isIdentChar (w.2.2 c hc))
  | sign c => exact exists_leads_char hp hrest (outer_of_mem_signs c.2)
  | blank c => exact exists_leads_char hp hrest (.inl (plain_of_isBlank c.2))
  | comment body =>
    obtain ⟨s, past, t, position⟩ := p
    obtain rfl : t = (comment body).text ++ rest := hrest
    have hcode : s.inCode = true := by
      rw [State.inCode, show s.context = .normal from hp]
      rfl
    obtain ⟨hreads, hkept⟩ := exists_reads_comment hcode body past rest position
    have hvisits := hreads.visits_eq
    obtain ⟨ps, hrun, -⟩ := hreads
    exact ⟨⟨s, (comment body).text.reverse ++ past, rest, position + (comment body).text.length⟩,
      hp, rfl, ⟨ps, hrun⟩, blanked_unvisited hvisits rfl rfl, hkept⟩

/-- Several of them lead to their end. -/
theorem exists_leads {p : Cursor} (hp : p.state.context = .normal) (xs : List Lexeme)
    (hrest : p.rest = written xs) :
    ∃ q : Cursor, q.state.context = .normal ∧ q.rest = [] ∧
      Leads p q (xs.flatMap Lexeme.shown) (xs.flatMap Lexeme.kept) := by
  induction xs generalizing p with
  | nil => exact ⟨p, hp, hrest, .refl p⟩
  | cons x xs ih =>
    obtain ⟨q, hq, hqrest, hfirst⟩ := x.exists_leads hp hrest
    obtain ⟨r, hr, hrrest, hothers⟩ := ih hq hqrest
    exact ⟨r, hr, hrrest, hfirst.trans hothers⟩

/-- What is left of a text that is read to its end. -/
theorem Leads.left {t shown kept : Text} {q : Cursor} (hq : q.state.context = .normal)
    (hrest : q.rest = []) (h : Leads ⟨{}, [], t, 0⟩ q shown kept) :
    codeOnly t = shown ∧ stripComments t = kept ∧ EndsOutside t := by
  obtain ⟨s, past, _, position⟩ := q
  obtain rfl : _ = [] := hrest
  have hpass : Cursor.pass ⟨s, past, [], position⟩ = ⟨[], s, none, []⟩ := by
    rw [Cursor.pass, passFrom]
  have hblanked : Cursor.blanked ⟨s, past, [], position⟩ = [] := by
    rw [Cursor.blanked, blankedFrom]
  refine ⟨?_, ?_, ?_⟩
  · have hshown : codeOnly t = _ := h.blanked
    rw [hshown, hblanked, List.append_nil]
  · rw [stripComments_eq_code, h.code, hpass]
    exact List.append_nil kept
  · obtain ⟨ps, hrun⟩ := h.run
    have hends := hrun.endsOutside_iff
    rw [hpass] at hends
    refine hends.2 ⟨rfl, ?_⟩
    have hline : ¬ s.context = .lineComment := by
      rw [show s.context = .normal from hq]
      decide
    rw [State.finish, if_neg hline]
    exact hq

/-- **Code and comments of lexemes.**  Only the comments among them are no code, and they end
outside everything. -/
theorem codeOnly_written (xs : List Lexeme) :
    codeOnly (written xs) = xs.flatMap Lexeme.shown ∧
      stripComments (written xs) = xs.flatMap Lexeme.kept ∧ EndsOutside (written xs) := by
  obtain ⟨q, hq, hrest, hleads⟩ := exists_leads (p := ⟨{}, [], written xs, 0⟩) rfl xs rfl
  exact hleads.left hq hrest

theorem stripComments_of_plain {t : Text} (ht : ∀ c ∈ t, Plain c) : stripComments t = t := by
  obtain ⟨q, hq, hrest, hleads⟩ := exists_leads_chars (p := ⟨{}, [], t, 0⟩) rfl
    (List.append_nil t).symm fun c hc => .inl (ht c hc)
  exact (hleads.left hq hrest).2.1

/-! ## Tokens -/

theorem isBlank_of_mem_shown {body : CommentBody} {c : Char}
    (h : c ∈ (Lexeme.comment body).shown) : Text.isBlank c = true := by
  obtain ⟨d, -, rfl⟩ := List.mem_map.1 h
  split
  · rename_i hd
    rw [beq_iff_eq.1 hd]
    decide
  · decide

theorem not_isIdentChar_of_mem_signs {c : Char} (h : c ∈ signs) :
    Text.isIdentChar c = false ∧ Text.isBlank c = false := by
  revert c
  decide

/-- What does not begin with a word does not begin with an identifier character. -/
theorem head?_shown {xs : List Lexeme} (h : ∀ x ∈ xs.head?, x.isWord = false) :
    (xs.flatMap Lexeme.shown).head?.any Text.isIdentChar = false := by
  cases xs with
  | nil => rfl
  | cons x xs =>
    cases x with
    | word w => cases h _ rfl
    | sign c => exact (not_isIdentChar_of_mem_signs c.2).1
    | blank c => exact Text.isIdentChar_of_isBlank c.2
    | comment body =>
      have hcons : ∃ c t, (Lexeme.comment body).shown = c :: t := ⟨' ', _, rfl⟩
      obtain ⟨c, t, hcons⟩ := hcons
      have hc : Text.isBlank c = true := isBlank_of_mem_shown (hcons ▸ List.mem_cons_self)
      rw [List.flatMap_cons, hcons]
      exact Text.isIdentChar_of_isBlank hc

theorem tokens_shown {xs : List Lexeme} (h : WordsApart xs) :
    Text.tokens (xs.flatMap Lexeme.shown) = tokensOf xs := by
  induction xs with
  | nil => rfl
  | cons x xs ih =>
    obtain ⟨hfirst, hrest⟩ := List.isChain_cons.1 h
    rw [List.flatMap_cons, tokensOf, List.filterMap_cons]
    cases x with
    | word w =>
      have hbehind := head?_shown fun y hy => hfirst y hy rfl
      exact (Text.tokens_word w.2.1 w.2.2 hbehind).trans (congrArg (w.1 :: ·) (ih hrest))
    | sign c =>
      obtain ⟨hident, hblank⟩ := not_isIdentChar_of_mem_signs c.2
      exact (Text.tokens_sign hident hblank _).trans (congrArg ([c.1] :: ·) (ih hrest))
    | blank c => exact (Text.tokens_blank c.2 _).trans (ih hrest)
    | comment body =>
      exact (Text.tokens_blanks (fun c hc => isBlank_of_mem_shown hc) _).trans (ih hrest)

/-- **The tokens of lexemes are the words and the signs.** -/
theorem codeTokens_written {xs : List Lexeme} (h : WordsApart xs) :
    codeTokens (written xs) = tokensOf xs := by
  rw [codeTokens, (codeOnly_written xs).1, tokens_shown h]

/-! ## Collapsing -/

/-- The comment with one space for every run of white space. -/
def CommentBody.collapsed (body : CommentBody) : CommentBody :=
  ⟨Text.runs false body.1, by
    rw [Text.containsText_eq_false_iff]
    intro h
    have hbody := Text.isInfix_of_runs (by decide) (by decide) h
    exact Text.containsText_eq_false_iff.1 body.2 hbody⟩

/-- A space. -/
def Lexeme.space : Lexeme :=
  .blank ⟨' ', by decide⟩

/-- The lexemes with one space for every run of white space that something follows.  `inGap` says
that a run is going on, or that nothing stands in front. -/
def collapsedFrom (inGap : Bool) : List Lexeme → List Lexeme
  | [] => []
  | .blank _ :: xs =>
    if inGap || (collapsedFrom true xs).isEmpty then collapsedFrom true xs
    else .space :: collapsedFrom true xs
  | .comment body :: xs => .comment body.collapsed :: collapsedFrom false xs
  | .word w :: xs => .word w :: collapsedFrom false xs
  | .sign c :: xs => .sign c :: collapsedFrom false xs

theorem isEmpty_written (xs : List Lexeme) : (written xs).isEmpty = xs.isEmpty := by
  cases xs with
  | nil => rfl
  | cons x xs => simp [x.text_ne_nil]

theorem squeeze_word {w : Text} (hne : w ≠ []) (hw : ∀ c ∈ w, Text.isIdentChar c = true)
    (inGap : Bool) (t : Text) : Text.squeeze inGap (w ++ t) = w ++ Text.squeeze false t := by
  induction w generalizing inGap with
  | nil => exact absurd rfl hne
  | cons c w ih =>
    obtain ⟨hc, hw⟩ := List.forall_mem_cons.1 hw
    have hblank : ¬ Text.isBlank c = true := by
      simp [Text.isBlank_of_isIdentChar hc]
    rw [List.cons_append, Text.squeeze, if_neg hblank]
    cases w with
    | nil => rfl
    | cons d w => exact congrArg (c :: ·) (ih (by simp) hw false)

theorem squeeze_comment (body : CommentBody) (inGap : Bool) (t : Text) :
    Text.squeeze inGap ((Lexeme.comment body).text ++ t) =
      (Lexeme.comment body.collapsed).text ++ Text.squeeze false t := by
  have hstar : Text.isBlank '*' = false := by decide
  have hslash : ¬ Text.isBlank '/' = true := by decide
  have hclose : Text.squeeze false (body.1 ++ '*' :: '/' :: t) =
      Text.runs false body.1 ++ '*' :: '/' :: Text.squeeze false t := by
    rw [Text.squeeze_append hstar, Text.squeeze, if_neg hslash]
  have htext : (Lexeme.comment body).text ++ t = '/' :: '*' :: (body.1 ++ '*' :: '/' :: t) := by
    simp [Lexeme.text]
  rw [htext, Text.squeeze, if_neg hslash, Text.squeeze, if_neg (by decide), hclose]
  simp [Lexeme.text, CommentBody.collapsed]

theorem squeeze_written (inGap : Bool) (xs : List Lexeme) :
    Text.squeeze inGap (written xs) = written (collapsedFrom inGap xs) := by
  induction xs generalizing inGap with
  | nil => rfl
  | cons x xs ih =>
    rw [written_cons]
    cases x with
    | word w => rw [collapsedFrom, written_cons, ← ih, Lexeme.text, squeeze_word w.2.1 w.2.2]
    | sign c =>
      have hblank := (not_isIdentChar_of_mem_signs c.2).2
      rw [collapsedFrom, written_cons, ← ih]
      simp [Lexeme.text, Text.squeeze, hblank]
    | comment body => rw [collapsedFrom, written_cons, ← ih, squeeze_comment]
    | blank c =>
      rw [collapsedFrom, ← isEmpty_written, ← ih]
      simp only [Lexeme.text, List.singleton_append, Text.squeeze, c.2, if_true]
      split
      · exact ih true
      · rw [written_cons, ← ih]
        rfl

/-- **A collapsed text of lexemes is a text of lexemes.** -/
theorem collapse_written (xs : List Lexeme) :
    Text.collapse (written xs) = written (collapsedFrom true xs) := by
  rw [Text.collapse_eq_squeeze, squeeze_written]

theorem tokensOf_collapsedFrom (inGap : Bool) (xs : List Lexeme) :
    tokensOf (collapsedFrom inGap xs) = tokensOf xs := by
  induction xs generalizing inGap with
  | nil => rfl
  | cons x xs ih =>
    cases x with
    | word w => exact congrArg (w.1 :: ·) (ih false)
    | sign c => exact congrArg ([c.1] :: ·) (ih false)
    | comment body => exact ih false
    | blank c =>
      rw [collapsedFrom]
      split <;> exact ih true

/-- No word comes to the front that was not there, if something was in front. -/
theorem head?_collapsedFrom {xs : List Lexeme} (h : ∀ x ∈ xs.head?, x.isWord = false) :
    ∀ x ∈ (collapsedFrom false xs).head?, x.isWord = false := by
  cases xs with
  | nil => exact fun x hx => by cases hx
  | cons y xs =>
    cases y with
    | word w => cases h _ rfl
    | sign c =>
      rintro x ⟨⟩
      rfl
    | comment body =>
      rintro x ⟨⟩
      rfl
    | blank c =>
      intro x hx
      rw [collapsedFrom] at hx
      split at hx
      · rename_i hempty
        have hnil : collapsedFrom true xs = [] := by simpa using hempty
        rw [hnil] at hx
        cases hx
      · cases hx
        rfl

theorem WordsApart.collapsedFrom {xs : List Lexeme} (h : WordsApart xs) (inGap : Bool) :
    WordsApart (collapsedFrom inGap xs) := by
  induction xs generalizing inGap with
  | nil => exact List.isChain_nil
  | cons x xs ih =>
    obtain ⟨hfirst, hrest⟩ := List.isChain_cons.1 h
    cases x with
    | word w =>
      refine List.isChain_cons.2 ⟨fun y hy _ => ?_, ih hrest false⟩
      exact head?_collapsedFrom (fun y hy => hfirst y hy rfl) y hy
    | sign c => exact .cons rfl (ih hrest false)
    | comment body => exact .cons rfl (ih hrest false)
    | blank c =>
      rw [Lexing.collapsedFrom]
      split
      · exact ih hrest true
      · exact .cons rfl (ih hrest true)

/-- **Collapsing a text of lexemes keeps its tokens.** -/
theorem codeTokens_collapse {xs : List Lexeme} (h : WordsApart xs) :
    codeTokens (Text.collapse (written xs)) = codeTokens (written xs) := by
  rw [collapse_written, codeTokens_written (h.collapsedFrom true), tokensOf_collapsedFrom,
    codeTokens_written h]

/-- A line comment goes on over the next lines when its text is collapsed. -/
example :
    codeTokens "a // c\nb".toList = ["a".toList, "b".toList] ∧
      codeTokens (Text.collapse "a // c\nb".toList) = ["a".toList] := by
  decide +kernel

/-! ## Reading -/

theorem Lexeme.plain_of_mem_text {x : Lexeme} (hbrace : x.isBrace = false)
    (hcomment : x.kept = x.text) : ∀ c ∈ x.text, Plain c := by
  intro c hc
  cases x with
  | word w => exact plain_of_isIdentChar (w.2.2 c hc)
  | blank d =>
    rw [List.mem_singleton.1 hc]
    exact plain_of_isBlank d.2
  | comment body => cases hcomment
  | sign d =>
    rw [List.mem_singleton.1 hc]
    have hd := d.2
    rcases outer_of_mem_signs hd with hplain | hopen | hclose
    · exact hplain
    · simp [isBrace, hopen] at hbrace
      exact absurd rfl hbrace.1
    · simp [isBrace, hclose] at hbrace
      exact absurd rfl hbrace.2

/-- A lexeme that is no curly bracket is read back to the state in front of it. -/
theorem Lexeme.exists_reads {base : State} (hbase : base.inCode = true) {x : Lexeme}
    (hx : x.isBrace = false) (outer more : Text) (offset : Nat) :
    ∃ vs, Reads base outer x.text more offset vs ∧
      ∀ v ∈ vs, v.state = base ∧ v.char ∈ x.kept := by
  have hplain : x.kept = x.text → ∃ vs, Reads base outer x.text more offset vs ∧
      ∀ v ∈ vs, v.state = base ∧ v.char ∈ x.kept := by
    intro hkept
    obtain ⟨vs, hreads, hvs⟩ := Reads.of_plain hbase (plain_of_mem_text hx hkept) outer more offset
    refine ⟨vs, hreads, fun v hv => ?_⟩
    obtain ⟨hstate, a, b, htext, -⟩ := hvs v hv
    rw [hkept, htext]
    exact ⟨hstate, by simp⟩
  cases x with
  | word w => exact hplain rfl
  | sign c => exact hplain rfl
  | blank c => exact hplain rfl
  | comment body =>
    exact ⟨[], (exists_reads_comment hbase body outer more offset).1, by simp⟩

/-- So are several of them. -/
theorem exists_reads {base : State} (hbase : base.inCode = true) {xs : List Lexeme}
    (hxs : ∀ x ∈ xs, x.isBrace = false) (outer more : Text) (offset : Nat) :
    ∃ vs, Reads base outer (written xs) more offset vs ∧
      ∀ v ∈ vs, v.state = base ∧ ∃ x ∈ xs, v.char ∈ x.kept := by
  induction xs generalizing outer offset with
  | nil => exact ⟨[], ⟨[], .refl _, rfl⟩, by simp⟩
  | cons x xs ih =>
    obtain ⟨hx, hxs⟩ := List.forall_mem_cons.1 hxs
    obtain ⟨vs, hvs, hfirst⟩ := x.exists_reads hbase hx outer (written xs ++ more) offset
    obtain ⟨ws, hws, hothers⟩ := ih hxs _ _
    refine ⟨vs ++ ws, hvs.append hws, fun v hv => ?_⟩
    rcases List.mem_append.1 hv with hv | hv
    · obtain ⟨hstate, hchar⟩ := hfirst v hv
      exact ⟨hstate, x, List.mem_cons_self, hchar⟩
    · obtain ⟨hstate, y, hy, hchar⟩ := hothers v hv
      exact ⟨hstate, y, List.mem_cons_of_mem _ hy, hchar⟩

/-- A block of lexemes with plain characters in front and lexemes behind.  At the top level are only
what stands in front, the brackets, and what stands behind. -/
theorem exists_reads_block {front : Text} {inside behind : List Lexeme}
    (hfront : ∀ c ∈ front, Plain c) (hinside : ∀ x ∈ inside, x.isBrace = false)
    (hbehind : ∀ x ∈ behind, x.isBrace = false) (more : Text) :
    ∃ vs, Reads {} [] (front ++ (('{' :: written inside ++ ['}']) ++ written behind)) more 0 vs ∧
      ∀ v ∈ vs, v.state.atTopLevel = true →
        (∃ a b, front = a ++ v.char :: b ∧ v.past = a.reverse) ∨ v.char = '{' ∨ v.char = '}' ∨
          ∃ x ∈ behind, v.char ∈ x.kept := by
  have hnormal : State.inCode {} = true := rfl
  have hopened : (State.openBracket {} .brace (0 + front.length)).inCode = true := rfl
  obtain ⟨us, hus, hplain⟩ := Reads.of_plain hnormal hfront []
    (('{' :: written inside ++ ['}']) ++ written behind ++ more) 0
  obtain ⟨vs, hvs, hblock⟩ := exists_reads hopened hinside ('{' :: (front.reverse ++ []))
    ('}' :: (written behind ++ more)) (0 + front.length + 1)
  have henclosed := hvs.enclosed (b := .brace) .fresh rfl
  obtain ⟨ws, hws, hlast⟩ := exists_reads hnormal hbehind
    (('{' :: written inside ++ ['}']).reverse ++ (front.reverse ++ [])) more
    (0 + front.length + ('{' :: written inside ++ ['}']).length)
  refine ⟨_, hus.append (henclosed.append hws), ?_⟩
  intro v hv htop
  simp only [List.mem_append, List.mem_cons, List.not_mem_nil, or_false] at hv
  rcases hv with hv | ((rfl | hv) | rfl) | hv
  · obtain ⟨-, a, b, heq, hpast, -⟩ := hplain v hv
    exact .inl ⟨a, b, heq, by simpa using hpast⟩
  · exact .inr (.inl rfl)
  · -- inside the block a bracket is open
    rw [(hblock v hv).1] at htop
    cases htop
  · exact .inr (.inr (.inl rfl))
  · exact .inr (.inr (.inr (hlast v hv).2))

end ModuleSurface.Lexing

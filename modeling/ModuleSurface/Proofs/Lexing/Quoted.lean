import ModuleSurface.Proofs.Lexing.Inert

/-!
# Texts around one string

A text with one string in it, and nothing around the string that could begin a comment or a literal,
has no comments: `stripComments_quoted`.  The string need not be closed, as a backslash at the end
of its text escapes the closing quote.
-/

namespace ModuleSurface.Lexing

open Cursor

/-- A character that begins neither a comment nor a literal. -/
def Quiet (c : Char) : Prop :=
  c ∉ ['/', '\'', '"', '\x60']

instance : DecidablePred Quiet :=
  fun c => inferInstanceAs (Decidable (c ∉ ['/', '\'', '"', '\x60']))

/-- A quiet character is read alone, and the pass stays in code. -/
theorem exists_step_of_quiet {s : State} (hs : s.context = .normal) {c : Char} (hc : Quiet c)
    (past rest : Text) (position : Nat) :
    ∃ s', s.step past c rest position = .ok (1, s') ∧ s'.context = .normal := by
  simp only [Quiet, List.mem_cons, List.not_mem_nil, or_false, not_or] at hc
  obtain ⟨hslash, hsingle, hdouble, hbacktick⟩ := hc
  have hreads : s.readsCode c rest = true := by
    refine readsCode_iff.2 ⟨by rw [State.inCode, hs]; rfl, fun h => absurd h hslash, ?_, ?_⟩
    · simp [Context.ofQuote?, hsingle, hdouble, hbacktick]
    · simp [State.closesExpr, hs]
  have hwidth : RegexLiteral.width? past c rest = none := by
    simp [RegexLiteral.width?, hslash]
  rw [step_of_readsCode hreads, hwidth]
  cases Bracket.ofOpener? c with
  | some b => exact ⟨_, rfl, by rw [State.context_openBracket, hs]⟩
  | none =>
    cases Bracket.ofCloser? c with
    | some b => exact ⟨_, rfl, by rw [State.context_closeBracket, hs]⟩
    | none => exact ⟨_, rfl, hs⟩

/-- Quiet characters lead from code to code. -/
theorem Cursor.Run.quiet {t : Text} (ht : ∀ c ∈ t, Quiet c) {s : State} (hs : s.context = .normal)
    (past more : Text) (position : Nat) :
    ∃ ps s', Run ⟨s, past, t ++ more, position⟩ ps
        ⟨s', t.reverse ++ past, more, position + t.length⟩ ∧ s'.context = .normal ∧
      ∀ p ∈ ps, p.state.context.isComment = false := by
  induction t generalizing s past position with
  | nil => exact ⟨[], s, .refl _, hs, by simp⟩
  | cons c t ih =>
    obtain ⟨hc, ht⟩ := List.forall_mem_cons.1 ht
    obtain ⟨s', hstep, hs'⟩ := exists_step_of_quiet hs hc past (t ++ more) position
    have hnext : Next ⟨s, past, c :: (t ++ more), position⟩
        ⟨s', [c].reverse ++ past, t ++ more, position + [c].length⟩ := .of_unit hstep rfl
    obtain ⟨ps, s'', hrun, hs'', hps⟩ := ih ht hs' (c :: past) (position + 1)
    have hall := Run.cons hnext hrun
    have hend : (⟨s'', t.reverse ++ c :: past, more, position + 1 + t.length⟩ : Cursor) =
        ⟨s'', (c :: t).reverse ++ past, more, position + (c :: t).length⟩ := by
      simp [Nat.add_assoc, Nat.add_comm 1]
    rw [hend] at hall
    refine ⟨_, s'', hall, hs'', ?_⟩
    intro p hp
    rcases List.mem_cons.1 hp with rfl | hp
    · rw [hs]
      rfl
    · exact hps p hp

/-- Without quotes and newlines, a text is the body of a string, or would be one but for a backslash
at its end. -/
theorem isStringBody_or_backslash {u : Text} (hu : ∀ c ∈ u, c ≠ '\'' ∧ c ≠ '\n') :
    isStringBody '\'' u = true ∨ ∃ v, u = v ++ ['\\'] ∧ isStringBody '\'' v = true := by
  fun_induction isStringBody '\'' u with
  | case1 => exact .inl rfl
  | case2 => exact .inr ⟨[], rfl, rfl⟩
  | case3 d t ih =>
    have hd : d ≠ '\n' := (hu d (by simp)).2
    rcases ih fun c hc => hu c (by simp [hc]) with hbody | ⟨v, rfl, hv⟩
    · exact .inl (by simp [hd, hbody])
    · exact .inr ⟨'\\' :: d :: v, rfl, by simp [isStringBody, hd, hv]⟩
  | case4 c t hc ih =>
    obtain ⟨hquote, hnewline⟩ := hu c List.mem_cons_self
    rcases ih fun c hc => hu c (List.mem_cons_of_mem _ hc) with hbody | ⟨v, rfl, hv⟩
    · exact .inl (by simp [hquote, hnewline, hbody])
    · refine .inr ⟨c :: v, rfl, ?_⟩
      rw [isStringBody.eq_def]
      simp [hc, hquote, hnewline, hv]

/-- A run to the end of a text that goes through no comment keeps the whole text. -/
theorem Cursor.Run.stripComments_eq {text : Text} {ps : List Cursor} {q : Cursor}
    (h : Run ⟨{}, [], text, 0⟩ ps q) (hrest : q.rest = [])
    (hps : ∀ p ∈ ps, p.state.context.isComment = false)
    (hq : q.state.context.isComment = false) : stripComments text = text := by
  obtain ⟨read, hread, hcode⟩ := h.code_eq hps hq
  have hend : q.pass.code = [] := by
    rw [Cursor.pass, hrest, passFrom]
    rfl
  rw [hrest, List.append_nil] at hread
  rw [hend, List.append_nil] at hcode
  rw [stripComments_eq_code, hcode]
  exact hread.symm

/-- When the quote closes the string, the tail is code again. -/
theorem Cursor.Run.exists_closed {s : State} (hs : s.context = .normal) {source tail : Text}
    (hsource : isStringBody '\'' source = true) (htail : ∀ c ∈ tail, Quiet c) (past : Text)
    (start position : Nat) :
    ∃ qs q, Run ⟨s.enter .singleQuote start, past, source ++ '\'' :: tail, position⟩ qs q ∧
      q.rest = [] ∧ (∀ p ∈ qs, p.state.context.isComment = false) ∧
      q.state.context.isComment = false := by
  obtain ⟨qs, hqs, hstates⟩ := Quote.run_body (q := .single) (s := s.enter .singleQuote start) rfl
    (isEscaped_of_isStringBody hsource) past ('\'' :: tail) position
  have hclose := Next.step (Quote.step_close s .single start (source.reverse ++ past) tail
    (position + source.length))
  obtain ⟨rs, t, hrs, ht, hcomments⟩ := Run.quiet htail hs ('\'' :: (source.reverse ++ past)) []
    (position + source.length + 1)
  rw [List.append_nil] at hrs
  refine ⟨_, _, hqs.append (.cons hclose hrs), rfl, ?_, by rw [ht]; rfl⟩
  intro p hp
  rcases List.mem_append.1 hp with hp | hp
  · rw [hstates p hp]
    rfl
  · rcases List.mem_cons.1 hp with rfl | hp
    · rfl
    · exact hcomments p hp

/-- When a backslash escapes the quote, the tail belongs to the string. -/
theorem Cursor.Run.exists_escaped (s : State) {source tail : Text}
    (hsource : isStringBody '\'' source = true) (htail : isStringBody '\'' tail = true)
    (past : Text) (start position : Nat) :
    ∃ qs q, Run ⟨s.enter .singleQuote start, past, source ++ '\\' :: '\'' :: tail, position⟩ qs q ∧
      q.rest = [] ∧ (∀ p ∈ qs, p.state.context.isComment = false) ∧
      q.state.context.isComment = false := by
  obtain ⟨qs, hqs, hstates⟩ := Quote.run_body (q := .single) (s := s.enter .singleQuote start) rfl
    (isEscaped_of_isStringBody hsource) past ('\\' :: '\'' :: tail) position
  have hescape : (s.enter .singleQuote start).step (source.reverse ++ past) '\\' ('\'' :: tail)
      (position + source.length) = .ok (['\\', '\''].length, s.enter .singleQuote start) := rfl
  obtain ⟨rs, hrs, hin⟩ := Quote.run_body (q := .single) (s := s.enter .singleQuote start) rfl
    (isEscaped_of_isStringBody htail) (['\\', '\''].reverse ++ (source.reverse ++ past)) []
    (position + source.length + ['\\', '\''].length)
  rw [List.append_nil] at hrs
  refine ⟨_, _, hqs.append (.cons (.of_unit hescape rfl) hrs), rfl, ?_, rfl⟩
  intro p hp
  rcases List.mem_append.1 hp with hp | hp
  · rw [hstates p hp]
    rfl
  · rcases List.mem_cons.1 hp with rfl | hp
    · rfl
    · rw [hin p hp]
      rfl

/-- **There are no comments around one string**, whether its closing quote ends it or a backslash at
the end of its text escapes that quote. -/
theorem stripComments_quoted {front source tail : Text} (hfront : ∀ c ∈ front, Quiet c)
    (hsource : ∀ c ∈ source, c ≠ '\'' ∧ c ≠ '\n') (htail : ∀ c ∈ tail, Quiet c)
    (hbody : isStringBody '\'' tail = true) :
    stripComments (front ++ '\'' :: (source ++ '\'' :: tail)) =
      front ++ '\'' :: (source ++ '\'' :: tail) := by
  obtain ⟨ps, s, hrun, hs, hps⟩ :=
    Run.quiet hfront (s := {}) rfl [] ('\'' :: (source ++ '\'' :: tail)) 0
  have hcode : s.inCode = true := by rw [State.inCode, hs]; rfl
  rw [List.append_nil, Nat.zero_add] at hrun
  have hopen := Next.step (Quote.step_open hcode .single front.reverse (source ++ '\'' :: tail)
    front.length)
  obtain ⟨qs, q, hqs, hend, hcomments, hq⟩ : ∃ qs q,
      Run ⟨s.enter .singleQuote front.length, '\'' :: front.reverse, source ++ '\'' :: tail,
        front.length + 1⟩ qs q ∧ q.rest = [] ∧
      (∀ p ∈ qs, p.state.context.isComment = false) ∧ q.state.context.isComment = false := by
    rcases isStringBody_or_backslash hsource with hstring | ⟨v, rfl, hv⟩
    · exact Run.exists_closed hs hstring htail _ _ _
    · rw [List.append_assoc]
      exact Run.exists_escaped s hv hbody _ _ _
  refine (hrun.append (.cons hopen hqs)).stripComments_eq hend ?_ hq
  intro p hp
  rcases List.mem_append.1 hp with hp | hp
  · exact hps p hp
  · rcases List.mem_cons.1 hp with rfl | hp
    · rw [hs]
      rfl
    · exact hcomments p hp

end ModuleSurface.Lexing

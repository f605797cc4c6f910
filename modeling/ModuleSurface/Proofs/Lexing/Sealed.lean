import ModuleSurface.Proofs.Lexing.Inert
import ModuleSurface.Proofs.Text.Search

/-!
# Literals without code in them

A string has no code in it, and neither has a template literal without substitutions.  Wherever such
a literal stands in code, it leads back to the state in front of it, nothing is visited in it, and
nothing of it is a comment (`Literal.exists_run`).
-/

namespace ModuleSurface.Lexing

open Cursor

/-! ## Delimiters -/

/-- What stands at both ends of a literal. -/
inductive Delimiter where
  /-- The quotes of a string. -/
  | quote (q : Quote)
  /-- The backticks of a template literal. -/
  | backtick
  deriving DecidableEq, Repr

namespace Delimiter

/-- The character at both ends. -/
def char : Delimiter → Char
  | quote q => q.char
  | backtick => '\x60'

/-- The context in between. -/
def context : Delimiter → Context
  | quote q => q.context
  | backtick => .template

/-- A text that can stand between the delimiters: they and the backslash only behind a backslash, no
newline, and no substitution. -/
def Encloses (d : Delimiter) (t : Text) : Prop :=
  isEscaped d.char t = true ∧ (d = backtick → Text.containsText t "$\x7b".toList = false)

instance (d : Delimiter) (t : Text) : Decidable (d.Encloses t) :=
  inferInstanceAs (Decidable (_ ∧ (_ → _)))

theorem context_ne_normal (d : Delimiter) : d.context ≠ .normal := by
  cases d with
  | quote q => cases q <;> decide
  | backtick => decide

theorem ofQuote?_char (d : Delimiter) : Context.ofQuote? d.char = some d.context := by
  cases d with
  | quote q => cases q <;> rfl
  | backtick => rfl

theorem not_isComment (d : Delimiter) : d.context.isComment = false ∧ d.context.inCode = false := by
  cases d with
  | quote q => cases q <;> exact ⟨rfl, rfl⟩
  | backtick => exact ⟨rfl, rfl⟩

theorem step_open {s : State} (hs : s.inCode = true) (d : Delimiter) (past rest : Text)
    (position : Nat) :
    s.step past d.char rest position = .ok (1, s.enter d.context position) := by
  cases d with
  | quote q => exact Quote.step_open hs q past rest position
  | backtick =>
    rw [State.step_of_inCode hs]
    rfl

theorem step_close (s : State) (d : Delimiter) (position : Nat) (past rest : Text)
    (position' : Nat) :
    (s.enter d.context position).step past d.char rest position' = .ok (1, s) := by
  cases d with
  | quote q => exact Quote.step_close s q position past rest position'
  | backtick => rfl

/-- The text of a template literal leads from one backtick to the other. -/
theorem run_template {s : State} (hs : s.context = .template) {t : Text}
    (ht : isEscaped '\x60' t = true) (hbare : Text.containsText t "$\x7b".toList = false)
    (past more : Text) (position : Nat) :
    ∃ ps, Run ⟨s, past, t ++ '\x60' :: more, position⟩ ps
        ⟨s, t.reverse ++ past, '\x60' :: more, position + t.length⟩ ∧ ∀ p ∈ ps, p.state = s := by
  have hstep : ∀ past c rest position,
      s.step past c rest position = .ok (s.stepTemplate c rest position) := by
    intro past c rest position
    rw [State.step, hs]
  rw [Text.containsText_eq_false_iff] at hbare
  fun_induction isEscaped '\x60' t generalizing past position with
  | case1 => exact ⟨[], .refl _, by simp⟩
  | case2 => cases ht
  | case3 d t ih =>
    -- a backslash is read with the character behind it
    have hunit : s.step past '\\' (d :: (t ++ '\x60' :: more)) position =
        .ok (['\\', d].length, s) := hstep _ _ _ _
    have hlater : ¬ "$\x7b".toList <:+: t := fun h =>
      hbare (h.trans (List.suffix_append ['\\', d] t).isInfix)
    exact Quote.run_unit hunit rfl (ih ht hlater _ _)
  | case4 c t hc ih =>
    simp only [Bool.and_eq_true, bne_iff_ne] at ht
    have hdollar : (c == '$' && (t ++ '\x60' :: more).head? == some '{') = false := by
      rw [Bool.eq_false_iff, Ne, Bool.and_eq_true, beq_iff_eq, beq_iff_eq]
      rintro ⟨rfl, hhead⟩
      cases t with
      | nil => cases hhead
      | cons d t =>
        obtain rfl : d = '{' := Option.some.inj hhead
        exact hbare ⟨[], t, rfl⟩
    have hunit : s.step past c (t ++ '\x60' :: more) position = .ok ([c].length, s) := by
      simp only [hstep, State.stepTemplate, hdollar]
      simp [hc, ht.1.1]
    have hlater : ¬ "$\x7b".toList <:+: t := fun h => hbare (h.trans (List.suffix_cons c t).isInfix)
    exact Quote.run_unit hunit rfl (ih ht.2 hlater _ _)

/-- What stands between the delimiters leads from one to the other. -/
theorem run_body {d : Delimiter} {s : State} (hs : s.context = d.context) {t : Text}
    (ht : d.Encloses t) (past more : Text) (position : Nat) :
    ∃ ps, Run ⟨s, past, t ++ d.char :: more, position⟩ ps
        ⟨s, t.reverse ++ past, d.char :: more, position + t.length⟩ ∧ ∀ p ∈ ps, p.state = s := by
  cases d with
  | quote q => exact Quote.run_body hs ht.1 past (q.char :: more) position
  | backtick => exact run_template hs ht.1 (ht.2 rfl) past more position

end Delimiter

/-! ## Literals -/

/-- A string, or a template literal without substitutions. -/
structure Literal where
  /-- What stands at both ends. -/
  delimiter : Delimiter
  /-- What stands in between. -/
  body : Text
  /-- It can stand there. -/
  enclosed : delimiter.Encloses body

namespace Literal

/-- The literal as written. -/
def text (x : Literal) : Text :=
  x.delimiter.char :: x.body ++ [x.delimiter.char]

theorem text_append (x : Literal) (more : Text) :
    x.text ++ more = x.delimiter.char :: (x.body ++ x.delimiter.char :: more) := by
  simp [text]

/-- **A literal leads back to the state in front of it**, nothing is visited in it, and nothing of
it is a comment. -/
theorem exists_run (x : Literal) {s : State} (hs : s.inCode = true) (past more : Text)
    (position : Nat) :
    ∃ ps, Run ⟨s, past, x.text ++ more, position⟩ ps
        ⟨s, x.text.reverse ++ past, more, position + x.text.length⟩ ∧
      ∀ p ∈ ps, p.state.context.isComment = false ∧ p.visit? = none := by
  obtain ⟨d, t, ht⟩ := x
  obtain ⟨ps, hrun, hps⟩ := Delimiter.run_body (s := s.enter d.context position) rfl ht
    (d.char :: past) more (position + 1)
  have hfirst := Next.step (Delimiter.step_open hs d past (t ++ d.char :: more) position)
  have hlast := Next.step (Delimiter.step_close s d position (t.reverse ++ d.char :: past) more
    (position + 1 + t.length))
  have hall := Run.cons hfirst (hrun.append (.single hlast))
  have hend : (⟨s, (text ⟨d, t, ht⟩).reverse ++ past, more,
      position + (text ⟨d, t, ht⟩).length⟩ : Cursor) =
        advance ⟨s.enter d.context position, t.reverse ++ d.char :: past, d.char :: more,
          position + 1 + t.length⟩ 1 s := by
    simp [text, advance, advancePast, Nat.add_comm, Nat.add_left_comm]
  rw [text_append, hend]
  refine ⟨_, hall, ?_⟩
  have hinside : ∀ p : Cursor, p.state = s.enter d.context position →
      p.state.context.isComment = false ∧ p.visit? = none := by
    intro p hp
    obtain ⟨hcomment, hcode⟩ := d.not_isComment
    rw [hp, visit?]
    refine ⟨hcomment, ?_⟩
    split
    · rfl
    · simp [State.readsCode, State.inCode, State.enter, hp, hcode]
  intro p hp
  rw [List.mem_cons, List.mem_append, List.mem_singleton] at hp
  rcases hp with rfl | hp | rfl
  · refine ⟨State.isComment_of_inCode hs, ?_⟩
    simp [visit?, State.readsCode, Delimiter.ofQuote?_char]
  · exact hinside p (hps p hp)
  · exact hinside _ rfl

theorem reads (x : Literal) {s : State} (hs : s.inCode = true) (past more : Text)
    (position : Nat) : Reads s past x.text more position [] := by
  obtain ⟨ps, hrun, hps⟩ := x.exists_run hs past more position
  exact ⟨ps, hrun, List.filterMap_eq_nil_iff.2 fun p hp => (hps p hp).2⟩

/-- It is kept when comments are taken out. -/
theorem code_eq (x : Literal) {s : State} (hs : s.inCode = true) (past more : Text)
    (position : Nat) :
    (Cursor.pass ⟨s, past, x.text ++ more, position⟩).code = x.text ++
      (Cursor.pass ⟨s, x.text.reverse ++ past, more, position + x.text.length⟩).code := by
  obtain ⟨ps, hrun, hps⟩ := x.exists_run hs past more position
  obtain ⟨read, hread, hcode⟩ :=
    hrun.code_eq (fun p hp => (hps p hp).1) (State.isComment_of_inCode hs)
  rw [hcode, List.append_cancel_right hread]

end Literal

end ModuleSurface.Lexing

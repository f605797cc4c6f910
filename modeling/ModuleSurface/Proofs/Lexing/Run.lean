import ModuleSurface.Lexing.Walk
import ModuleSurface.Proofs.Lexing.Embedding
import ModuleSurface.Proofs.Lexing.Lookahead

/-!
# Runs of the lexer

A cursor is a place in a text together with the lexical state there, and a run leads from one cursor
to another by steps that do not fail.  A run is judged with the text that really follows it, so runs
can be put together without a second look at where units end.

* `Run.pass_eq` and `Run.visits_eq` — what a pass and a walk make of a run;
* `Run.line` and `Run.block` — a comment leads back to the state in front of it.
-/

namespace ModuleSurface.Lexing

/-- A place in a text and the state of a pass there. -/
structure Cursor where
  /-- The state. -/
  state : State
  /-- The text in front of the place, in reverse. -/
  past : Text
  /-- The text behind the place. -/
  rest : Text
  /-- The offset of the place. -/
  position : Nat

namespace Cursor

/-- The place `k` characters further, in the state `s`. -/
def advance (p : Cursor) (k : Nat) (s : State) : Cursor :=
  ⟨s, advancePast p.past p.rest k, p.rest.drop k, p.position + k⟩

/-- One step of a pass, if there is text and the step does not fail. -/
inductive Next : Cursor → Cursor → Prop
  | step {s s' : State} {past : Text} {c : Char} {rest : Text} {position k : Nat} :
      s.step past c rest position = .ok (k, s') →
        Next ⟨s, past, c :: rest, position⟩ (advance ⟨s, past, c :: rest, position⟩ k s')

/-- A step that reads `unit`. -/
theorem Next.of_unit {s s' : State} {past : Text} {c : Char} {r unit rest : Text} {position : Nat}
    (hstep : s.step past c r position = .ok (unit.length, s')) (hunit : c :: r = unit ++ rest) :
    Next ⟨s, past, c :: r, position⟩
      ⟨s', unit.reverse ++ past, rest, position + unit.length⟩ := by
  have hnext := Next.step hstep
  rw [advance, advancePast, hunit, List.take_left, List.drop_left, ← hunit] at hnext
  exact hnext

/-- A run from one cursor to another, with the cursors it takes a step from. -/
inductive Run : Cursor → List Cursor → Cursor → Prop
  | refl (p : Cursor) : Run p [] p
  | cons {p q r : Cursor} {ps : List Cursor} : Next p q → Run q ps r → Run p (p :: ps) r

theorem Run.append {p q r : Cursor} {ps qs : List Cursor} (h₁ : Run p ps q) (h₂ : Run q qs r) :
    Run p (ps ++ qs) r := by
  induction h₁ with
  | refl => exact h₂
  | cons hn _ ih => exact .cons hn (ih h₂)

theorem Run.single {p q : Cursor} (h : Next p q) : Run p [p] q :=
  .cons h (.refl q)

/-- A run that begins at the end of the text is over. -/
theorem Run.eq_of_rest {p q : Cursor} {ps : List Cursor} (h : Run p ps q) (hp : p.rest = []) :
    q = p := by
  cases h with
  | refl => rfl
  | cons hn _ =>
    cases hn
    cases hp

/-- What every step preserves, a run preserves. -/
theorem Run.preserves {P : State → Prop} {p q : Cursor} {ps : List Cursor} (h : Run p ps q)
    (hP : ∀ {s s' : State}, s.Move s' → P s → P s') (hp : P p.state) : P q.state := by
  induction h with
  | refl => exact hp
  | cons hn _ ih =>
    cases hn with
    | step hstep => exact ih (hP (State.move_of_step hstep) hp)

theorem Run.coherent {p q : Cursor} {ps : List Cursor} (h : Run p ps q) (hp : p.state.Coherent) :
    q.state.Coherent :=
  h.preserves (fun hm hs => hs.move hm) hp

/-! ## Passes and walks along a run -/

/-- The pass from a cursor on. -/
def pass (p : Cursor) : Pass :=
  passFrom p.state p.past p.rest p.position

theorem Next.pass_eq {p q : Cursor} (h : Next p q) :
    p.pass.fault = q.pass.fault ∧ p.pass.state = q.pass.state := by
  cases h with
  | step hstep =>
    unfold Cursor.pass
    rw [passFrom]
    split
    · rename_i hf
      rw [hstep] at hf
      cases hf
    · rename_i k' s'' hk
      rw [hstep] at hk
      cases hk
      exact ⟨rfl, rfl⟩

/-- A pass ends alike behind a run. -/
theorem Run.pass_eq {p q : Cursor} {ps : List Cursor} (h : Run p ps q) :
    p.pass.fault = q.pass.fault ∧ p.pass.state = q.pass.state := by
  induction h with
  | refl => exact ⟨rfl, rfl⟩
  | cons hn _ ih => exact ⟨hn.pass_eq.1.trans ih.1, hn.pass_eq.2.trans ih.2⟩

/-- A pass without a fault is a run to the end of the text. -/
theorem run_of_pass (p : Cursor) (h : p.pass.fault = none) :
    ∃ ps q, Run p ps q ∧ q.rest = [] ∧ q.state = p.pass.state := by
  obtain ⟨s, past, rest, position⟩ := p
  simp only [Cursor.pass] at h ⊢
  fun_induction passFrom s past rest position with
  | case1 s past position => exact ⟨[], _, .refl _, rfl, rfl⟩
  | case2 => cases h
  | case3 s past position c r k s' hstep p m ih =>
    obtain ⟨ps, q, hrun, hrest, hstate⟩ := ih h
    exact ⟨_ :: ps, q, .cons (.step hstep) hrun, hrest, hstate⟩

/-- The visit that a walk makes at a cursor, if it makes one. -/
def visit? (p : Cursor) : Option Visit :=
  match p.rest with
  | [] => none
  | c :: r =>
    if p.state.readsCode c r && (RegexLiteral.width? p.past c r).isNone then
      some { index := p.position, past := p.past, char := c, rest := r, state := p.state }
    else none

/-- The visits from a cursor on. -/
def visits (p : Cursor) : List Visit :=
  visitsFrom p.state p.past p.rest p.position

theorem readsCode_iff {s : State} {c : Char} {rest : Text} :
    s.readsCode c rest = true ↔
      s.inCode = true ∧ (c = '/' → rest.head? ≠ some '/' ∧ rest.head? ≠ some '*') ∧
        Context.ofQuote? c = none ∧ s.closesExpr c = false := by
  have hslash : (!(c == '/' && (rest.head? == some '/' || rest.head? == some '*'))) = true ↔
      (c = '/' → rest.head? ≠ some '/' ∧ rest.head? ≠ some '*') := by
    by_cases hc : c = '/' <;> simp [hc]
  simp only [State.readsCode, Bool.and_eq_true, hslash, Bool.not_eq_true',
    Option.isSome_eq_false_iff, Option.isNone_iff_eq_none, and_assoc]

/-- Code that is neither the start of a comment nor a delimiter: a regular expression literal is
read as a whole, a bracket is counted, and everything else is one character. -/
theorem step_of_readsCode {s : State} {c : Char} {rest : Text} (h : s.readsCode c rest = true)
    (past : Text) (position : Nat) :
    s.step past c rest position =
      .ok (match RegexLiteral.width? past c rest with
        | some k => (k, s)
        | none =>
          match Bracket.ofOpener? c with
          | some b => (1, s.openBracket b position)
          | none =>
            match Bracket.ofCloser? c with
            | some b => (1, s.closeBracket b)
            | none => (1, s)) := by
  obtain ⟨hcode, hslash, hquote, hexpr⟩ := readsCode_iff.1 h
  have hd : ∀ d : Char, d = '/' ∨ d = '*' → ¬ (c == '/' && rest.head? == some d) = true := by
    intro d hd hc
    simp only [Bool.and_eq_true, beq_iff_eq] at hc
    rcases hd with rfl | rfl
    · exact (hslash hc.1).1 hc.2
    · exact (hslash hc.1).2 hc.2
  rw [State.step_of_inCode hcode, State.stepCode, if_neg (hd _ (.inl rfl)),
    if_neg (hd _ (.inr rfl)), hquote, hexpr]
  rfl

theorem visitsFrom_cons {s s' : State} {past : Text} {c : Char} {rest : Text} {position k : Nat}
    (hstep : s.step past c rest position = .ok (k, s')) :
    visitsFrom s past (c :: rest) position =
      (visit? ⟨s, past, c :: rest, position⟩).toList ++
        visitsFrom s' (advancePast past (c :: rest) k) ((c :: rest).drop k) (position + k) := by
  rw [visitsFrom, visit?]
  split
  · rename_i w hw
    -- the walk leaps over a regular expression literal, and so does the step
    split at hw
    · rename_i hr
      rw [step_of_readsCode hr, hw] at hstep
      cases hstep
      simp [hw]
    · cases hw
  · rename_i hw
    -- elsewhere it goes on behind the step, which begins in code or does not
    split <;> rename_i hr <;> split <;> rename_i hk <;> rw [hstep] at hk <;> cases hk
    · rw [if_pos hr] at hw
      simp [hr, hw]
    · simp [hr]

/-- A walk visits what a step begins with, if that is code, and goes on behind the step. -/
theorem Next.visits_eq {p q : Cursor} (h : Next p q) : p.visits = p.visit?.toList ++ q.visits := by
  cases h with
  | step hstep => exact visitsFrom_cons hstep

/-- A walk over a run and what follows it. -/
theorem Run.visits_eq {p q : Cursor} {ps : List Cursor} (h : Run p ps q) :
    p.visits = ps.filterMap visit? ++ q.visits := by
  induction h with
  | refl => rfl
  | @cons p q r ps hn _ ih =>
    rw [hn.visits_eq, ih, List.filterMap_cons]
    cases p.visit? <;> rfl

/-! ## Comments -/

theorem step_lineComment {s : State} (hs : s.inCode = true) (past rest : Text) (position : Nat) :
    s.step past '/' ('/' :: rest) position = .ok (2, s.enter .lineComment position) := by
  rw [State.step_of_inCode hs]
  rfl

theorem step_blockComment {s : State} (hs : s.inCode = true) (past rest : Text) (position : Nat) :
    s.step past '/' ('*' :: rest) position = .ok (2, s.enter .blockComment position) := by
  rw [State.step_of_inCode hs]
  rfl

/-- A line comment is read up to the end of its line. -/
theorem Run.line {s : State} (hs : s.inCode = true) (past u rest : Text) (position : Nat)
    (hu : '\n' ∉ u) (hrest : rest.head? = none ∨ rest.head? = some '\n') :
    ∃ ps, Run ⟨s, past, '/' :: '/' :: (u ++ rest), position⟩ ps
      ⟨s.enter .lineComment position, u.reverse ++ '/' :: '/' :: past, rest,
        position + 2 + u.length⟩ := by
  have first := Next.step (step_lineComment hs past (u ++ rest) position)
  cases u with
  | nil => exact ⟨_, .single first⟩
  | cons c u =>
    rw [List.mem_cons, not_or] at hu
    have hall : ∀ a ∈ u, (a != '\n') = true := by
      intro a ha
      simpa using fun h => hu.2 (by rwa [← h])
    have hnone : rest.takeWhile (· != '\n') = [] := by
      cases rest with
      | nil => rfl
      | cons d rest =>
        rcases hrest with h | h
        · cases h
        · cases h; rfl
    have second : (s.enter .lineComment position).step ('/' :: '/' :: past) c (u ++ rest)
        (position + 2) = .ok ((c :: u).length, s.enter .lineComment position) := by
      simp [State.step, State.enter, State.stepLineComment, Ne.symm hu.1,
        List.takeWhile_append_of_pos hall, hnone, Nat.add_comm 1]
    exact ⟨_, .cons first (.single (.of_unit second rfl))⟩

/-- A line comment that its newline ends leads back to the state in front of it. -/
theorem Run.line_newline {s : State} (hs : s.inCode = true) (past u rest : Text) (position : Nat)
    (hu : '\n' ∉ u) :
    ∃ ps, Run ⟨s, past, '/' :: '/' :: (u ++ '\n' :: rest), position⟩ ps
      ⟨s, u.reverse ++ '/' :: '/' :: past, '\n' :: rest, position + 2 + u.length⟩ := by
  obtain ⟨ps, hrun⟩ := Run.line hs past u ('\n' :: rest) position hu (.inr rfl)
  have back : (s.enter .lineComment position).step (u.reverse ++ '/' :: '/' :: past) '\n' rest
      (position + 2 + u.length) = .ok (0, s) := rfl
  exact ⟨_, hrun.append (.single (.step back))⟩

/-- A block comment is read in two steps, and between them the pass is in it. -/
theorem exists_block {s : State} (hs : s.inCode = true) (past t : Text) (position n : Nat)
    (hn : Text.find? t "*/".toList = some n) :
    ∃ r : Cursor, r.state.context = .blockComment ∧ Next ⟨s, past, '/' :: '*' :: t, position⟩ r ∧
      Next r ⟨s, (t.take (n + 2)).reverse ++ '*' :: '/' :: past, t.drop (n + 2),
        position + 2 + (n + 2)⟩ := by
  cases t with
  | nil => cases hn
  | cons c t =>
    have second : (s.enter .blockComment position).step ('*' :: '/' :: past) c t (position + 2) =
        .ok (n + 2, s) := by
      simp only [State.step, State.enter, State.stepBlockComment, hn]
      rfl
    exact ⟨_, rfl, .step (step_blockComment hs past (c :: t) position), .step second⟩

/-- A block comment leads back to the state in front of it. -/
theorem Run.block {s : State} (hs : s.inCode = true) (past t : Text) (position n : Nat)
    (hn : Text.find? t "*/".toList = some n) :
    ∃ ps, Run ⟨s, past, '/' :: '*' :: t, position⟩ ps
      ⟨s, (t.take (n + 2)).reverse ++ '*' :: '/' :: past, t.drop (n + 2),
        position + 2 + (n + 2)⟩ := by
  obtain ⟨r, -, hopen, hclose⟩ := exists_block hs past t position n hn
  exact ⟨_, .cons hopen (.single hclose)⟩

/-- A block comment that does not end is read to the end of the text. -/
theorem Run.block_open {s : State} (hs : s.inCode = true) (past t : Text) (position : Nat)
    (ht : Text.find? t "*/".toList = none) :
    ∃ ps past' position', Run ⟨s, past, '/' :: '*' :: t, position⟩ ps
      ⟨s.enter .blockComment position, past', [], position'⟩ := by
  have first := Next.step (step_blockComment hs past t position)
  cases t with
  | nil => exact ⟨_, _, _, .single first⟩
  | cons c t =>
    have second : (s.enter .blockComment position).step ('*' :: '/' :: past) c t (position + 2) =
        .ok ((c :: t).length, s.enter .blockComment position) := by
      simp only [State.step, State.enter, State.stepBlockComment, ht]
      rfl
    exact ⟨_, _, _, .cons first (.single (.of_unit second (List.append_nil _).symm))⟩

end Cursor

/-! ## The end of a pass -/

theorem coherent_passFrom (s : State) (past rest : Text) (position : Nat) (hs : s.Coherent) :
    (passFrom s past rest position).state.Coherent := by
  fun_induction passFrom s past rest position with
  | case1 | case2 => exact hs
  | case3 s past position c r k s' hstep p m ih => exact ih (hs.step hstep)

/-- A pass ends in a coherent state, whether at a fault or at the end of the text. -/
theorem coherent_pass (text : Text) : (pass text).state.Coherent :=
  coherent_passFrom {} [] text 0 .fresh

end ModuleSurface.Lexing

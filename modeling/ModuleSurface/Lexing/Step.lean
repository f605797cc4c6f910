import ModuleSurface.Lexing.RegexLiteral
import ModuleSurface.Lexing.State

/-!
# One step of a pass

A step reads the lexical unit at the front of what is left of a text: one character, an escape
sequence, the delimiter of a comment, the opening of a substitution, the rest of a comment, or a
whole regular expression literal.  It answers how many characters the unit has and the state
behind it.  A backslash at the very end counts as two characters, and the newline behind a line
comment is handed back to the code around the comment, so that one step reads nothing.

`weight_step_lt` gives the measure that makes every loop over steps end.
-/

namespace ModuleSurface.Lexing

namespace State

/-- Reading code. -/
def stepCode (s : State) (past : Text) (c : Char) (rest : Text) (position : Nat) : Nat × State :=
  if c == '/' && rest.head? == some '/' then (2, s.enter .lineComment position)
  else if c == '/' && rest.head? == some '*' then (2, s.enter .blockComment position)
  else
    match Context.ofQuote? c with
    | some literal => (1, s.enter literal position)
    | none =>
      match RegexLiteral.width? past c rest with
      | some width => (width, s)
      | none =>
        match Bracket.ofOpener? c with
        | some b => (1, s.openBracket b position)
        | none =>
          -- the brace that ends a substitution closes no bracket
          if s.closesExpr c then (1, { s with exprDepths := s.exprDepths.tail }.leave)
          else
            match Bracket.ofCloser? c with
            | some b => (1, s.closeBracket b)
            | none => (1, s)

/-- Reading a line comment: up to the end of its line, or out of it at that end. -/
def stepLineComment (s : State) (c : Char) (rest : Text) : Nat × State :=
  if c == '\n' then (0, s.leave) else (1 + (rest.takeWhile (· != '\n')).length, s)

/-- Reading a block comment: behind its closing delimiter, or to the end of the text. -/
def stepBlockComment (s : State) (c : Char) (rest : Text) : Nat × State :=
  match Text.find? (c :: rest) "*/".toList with
  | some n => (n + 2, s.leave)
  | none => (rest.length + 1, s)

/-- Reading a string that `quote` closes. -/
def stepString (s : State) (quote : Char) (c : Char) : Except Fault (Nat × State) :=
  if c == '\\' then .ok (2, s)
  else if c == quote then .ok (1, s.leave)
  else if c == '\n' then .error ⟨.unterminatedString, s.contextStart⟩
  else .ok (1, s)

/-- Reading the text of a template literal. -/
def stepTemplate (s : State) (c : Char) (rest : Text) (position : Nat) : Nat × State :=
  if c == '\\' then (2, s)
  else if c == '\x60' then (1, s.leave)
  else if c == '$' && rest.head? == some '{' then
    (2, { s with exprDepths := s.braces :: s.exprDepths }.enter .templateExpr position)
  else (1, s)

/-- Read the unit that begins with `c`, at `position`, between `past` in reverse and `rest`: its
number of characters and the state behind it. -/
def step (s : State) (past : Text) (c : Char) (rest : Text) (position : Nat) :
    Except Fault (Nat × State) :=
  match s.context with
  | .normal | .templateExpr => .ok (s.stepCode past c rest position)
  | .lineComment => .ok (s.stepLineComment c rest)
  | .blockComment => .ok (s.stepBlockComment c rest)
  | .singleQuote => s.stepString '\'' c
  | .doubleQuote => s.stepString '"' c
  | .template => .ok (s.stepTemplate c rest position)

/-! ## Progress -/

/-- The measure of a pass with `left` characters to read: two for each of them, one for each
construct around the current one, and one for a line comment that is still to be left. -/
def weight (s : State) (left : Nat) : Nat :=
  2 * left + s.enclosing.length + (if s.context = .lineComment then 1 else 0)

theorem weight_le (s : State) (left : Nat) : s.weight left ≤ 2 * left + s.enclosing.length + 1 := by
  unfold weight
  split <;> omega

theorem le_weight (s : State) (left : Nat) : 2 * left + s.enclosing.length ≤ s.weight left := by
  unfold weight
  omega

/-- Leaving a construct weighs at most one more, as what is around it may be a line comment. -/
theorem weight_leave_le (s : State) (left : Nat) : s.leave.weight left ≤ s.weight left + 1 := by
  refine Nat.le_trans (weight_le _ _) ?_
  have := le_weight s left
  unfold leave
  cases h : s.enclosing <;> simp only [h, List.length_cons, List.length_nil] at this ⊢ <;> omega

/-- Leaving a line comment weighs less. -/
theorem weight_leave_lt {s : State} (h : s.context = .lineComment) (left : Nat) :
    s.leave.weight left < s.weight left := by
  unfold leave
  cases he : s.enclosing with
  | nil => simp [weight, h, he]
  | cons e outer =>
    have := weight_le { s with context := e.1, contextStart := e.2, enclosing := outer } left
    simp only at this ⊢
    simp only [weight, h, he, List.length_cons, if_true] at this ⊢
    omega

theorem weight_enter (s : State) (context : Context) (start left : Nat) :
    (s.enter context start).weight left =
      2 * left + s.enclosing.length + 1 + (if context = .lineComment then 1 else 0) := by
  by_cases h : context = .lineComment <;> simp only [weight, enter, List.length_cons, h] <;> rfl

@[simp] theorem weight_openBracket (s : State) (b : Bracket) (position left : Nat) :
    (s.openBracket b position).weight left = s.weight left := by
  cases b <;> rfl

@[simp] theorem weight_closeBracket (s : State) (b : Bracket) (left : Nat) :
    (s.closeBracket b).weight left = s.weight left := by
  unfold closeBracket
  split
  · rfl
  · cases b <;> rfl

/-- A unit of at least one character that leaves the state as heavy as it was is progress. -/
theorem weight_sub_lt (s : State) {n k : Nat} (hk : 1 ≤ k) (hn : 1 ≤ n) :
    s.weight (n - k) + 1 < s.weight n := by
  unfold weight
  omega

theorem weight_stepCode_lt (s : State) (past : Text) (c : Char) (rest : Text) (position : Nat) :
    (s.stepCode past c rest position).2.weight
      (rest.length + 1 - (s.stepCode past c rest position).1) < s.weight (rest.length + 1) := by
  have hw := le_weight s (rest.length + 1)
  have step := weight_sub_lt s (k := 1) (n := rest.length + 1) (by omega) (by omega)
  have two : ∀ d : Char, (c == '/' && rest.head? == some d) = true → 1 ≤ rest.length := by
    intro d h
    cases rest with
    | nil => simp at h
    | cons e rest => simp
  unfold stepCode
  split
  · rename_i h
    have := two _ h
    simp only [weight_enter, if_true]
    omega
  split
  · rename_i h
    have := two _ h
    simp only [weight_enter]
    simp only [reduceCtorEq, if_false]
    omega
  split
  · rename_i literal hq
    have : literal ≠ .lineComment := by
      rintro rfl
      simp only [Context.ofQuote?] at hq
      split at hq
      · cases hq
      split at hq
      · cases hq
      split at hq <;> cases hq
    simp only [weight_enter, if_neg this]
    omega
  split
  · rename_i k hk
    have := weight_sub_lt s (RegexLiteral.one_le_of_width? hk) (n := rest.length + 1) (by omega)
    simp only
    omega
  split
  · simpa using Nat.lt_of_succ_lt step
  split
  · have := weight_leave_le { s with exprDepths := s.exprDepths.tail } rest.length
    have h2 : State.weight { s with exprDepths := s.exprDepths.tail } rest.length
        = s.weight rest.length := rfl
    simp only [Nat.add_sub_cancel] at step ⊢
    omega
  split
  · simpa using Nat.lt_of_succ_lt step
  · exact Nat.lt_of_succ_lt step

theorem weight_stepLineComment_lt {s : State} (h : s.context = .lineComment) (c : Char)
    (rest : Text) :
    (s.stepLineComment c rest).2.weight (rest.length + 1 - (s.stepLineComment c rest).1) <
      s.weight (rest.length + 1) := by
  unfold stepLineComment
  split
  · exact weight_leave_lt h _
  · exact Nat.lt_of_succ_lt (weight_sub_lt s (by omega) (by omega))

theorem weight_stepBlockComment_lt (s : State) (c : Char) (rest : Text) :
    (s.stepBlockComment c rest).2.weight (rest.length + 1 - (s.stepBlockComment c rest).1) <
      s.weight (rest.length + 1) := by
  unfold stepBlockComment
  split
  · rename_i n _
    have h₁ := weight_leave_le s (rest.length + 1 - (n + 2))
    have h₂ := weight_sub_lt s (k := n + 2) (n := rest.length + 1) (by omega) (by omega)
    simp only
    omega
  · exact Nat.lt_of_succ_lt (weight_sub_lt s (by omega) (by omega))

theorem weight_stepString_lt {s : State} {quote c : Char} {k : Nat} {s' : State} (left : Nat)
    (h : s.stepString quote c = .ok (k, s')) :
    s'.weight (left + 1 - k) < s.weight (left + 1) := by
  unfold stepString at h
  split at h
  · cases h
    exact Nat.lt_of_succ_lt (weight_sub_lt s (by omega) (by omega))
  split at h
  · cases h
    have h₁ := weight_leave_le s (left + 1 - 1)
    have h₂ := weight_sub_lt s (k := 1) (n := left + 1) (by omega) (by omega)
    omega
  split at h
  · cases h
  · cases h
    exact Nat.lt_of_succ_lt (weight_sub_lt s (by omega) (by omega))

theorem weight_stepTemplate_lt (s : State) (c : Char) (rest : Text) (position : Nat) :
    (s.stepTemplate c rest position).2.weight
      (rest.length + 1 - (s.stepTemplate c rest position).1) < s.weight (rest.length + 1) := by
  unfold stepTemplate
  split
  · exact Nat.lt_of_succ_lt (weight_sub_lt s (by omega) (by omega))
  split
  · have h₁ := weight_leave_le s (rest.length + 1 - 1)
    have h₂ := weight_sub_lt s (k := 1) (n := rest.length + 1) (by omega) (by omega)
    simp only
    omega
  split
  · have hw := le_weight s (rest.length + 1)
    simp only [weight_enter, reduceCtorEq, if_false]
    omega
  · exact Nat.lt_of_succ_lt (weight_sub_lt s (by omega) (by omega))

/-- Every step that does not fail makes what is left of the pass lighter. -/
theorem weight_step_lt {s : State} {past : Text} {c : Char} {rest : Text} {position k : Nat}
    {s' : State} (h : s.step past c rest position = .ok (k, s')) :
    s'.weight ((c :: rest).drop k).length < s.weight (c :: rest).length := by
  simp only [List.length_drop, List.length_cons]
  unfold step at h
  split at h
  · have := weight_stepCode_lt s past c rest position
    simp only [Except.ok.injEq] at h
    rwa [h] at this
  · have := weight_stepCode_lt s past c rest position
    simp only [Except.ok.injEq] at h
    rwa [h] at this
  · rename_i hc
    have := weight_stepLineComment_lt hc c rest
    simp only [Except.ok.injEq] at h
    rwa [h] at this
  · have := weight_stepBlockComment_lt s c rest
    simp only [Except.ok.injEq] at h
    rwa [h] at this
  · exact weight_stepString_lt _ h
  · exact weight_stepString_lt _ h
  · have := weight_stepTemplate_lt s c rest position
    simp only [Except.ok.injEq] at h
    rwa [h] at this

end State

end ModuleSurface.Lexing

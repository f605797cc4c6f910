import ModuleSurface.Proofs.Lexing.Visits

/-!
# Two passes over one text

Of the state, a step looks only at the construct the pass is in and at whether a curly bracket would
end a substitution; of the text in front, only at what decides about regular expression literals.
So two passes over one text that agree on these take the same steps (`step_congr`), and a relation
of states that no step breaks (`Bisimulation`) holds from the first step to the last:
`Bisimulation.pass` and `Bisimulation.visits`.
-/

namespace ModuleSurface.Lexing

open Cursor

/-! ## Actions -/

/-- What a step does to the state. -/
inductive Action where
  /-- Nothing changes. -/
  | stay
  /-- A comment, a string or a template literal begins. -/
  | enter (context : Context)
  /-- A substitution begins in a template literal. -/
  | substitute
  /-- A comment, a string or a template literal ends. -/
  | leave
  /-- A substitution ends. -/
  | resume
  /-- A bracket opens. -/
  | openBracket (b : Bracket)
  /-- A bracket closes, or is counted as one that closes nothing. -/
  | closeBracket (b : Bracket)

namespace Action

/-- The state behind the action, taken at `position`. -/
def apply (position : Nat) (s : State) : Action → State
  | stay => s
  | enter context => s.enter context position
  | substitute => { s with exprDepths := s.braces :: s.exprDepths }.enter .templateExpr position
  | leave => s.leave
  | resume => { s with exprDepths := s.exprDepths.tail }.leave
  | openBracket b => s.openBracket b position
  | closeBracket b => s.closeBracket b

/-- When a step takes the action. -/
def Allowed (s : State) : Action → Prop
  | stay => True
  | enter context => s.inCode = true ∧ context.inCode = false
  | substitute => s.context = .template
  | leave => s.inCode = false
  | resume => s.context = .templateExpr ∧ s.exprDepths.head? = some s.braces
  | openBracket _ => s.inCode = true
  | closeBracket b => s.inCode = true ∧
      (b = .brace → s.context = .templateExpr → s.exprDepths.head? ≠ some s.braces)

theorem Allowed.move {s : State} {a : Action} (h : a.Allowed s) (position : Nat) :
    s.Move (a.apply position s) := by
  cases a with
  | stay => exact .stay
  | enter context => exact .enter h.1 h.2
  | substitute => exact .substitute h
  | leave => exact .leave h
  | resume => exact .resume h.1 h.2
  | openBracket b => exact .openBracket h
  | closeBracket b => exact .closeBracket h.1 h.2

end Action

namespace State

variable {s t : State} {c : Char} {past past' rest : Text}

/-- Two steps of code that are judged alike. -/
theorem stepCode_congr (hs : s.inCode = true) (hx : s.closesExpr c = t.closesExpr c)
    (hw : s.readsCode c rest = true →
      RegexLiteral.width? past c rest = RegexLiteral.width? past' c rest)
    (position position' : Nat) :
    ∃ k a, Action.Allowed s a ∧ s.stepCode past c rest position = (k, a.apply position s) ∧
      t.stepCode past' c rest position' = (k, a.apply position' t) := by
  unfold stepCode
  by_cases hline : (c == '/' && rest.head? == some '/') = true
  · rw [if_pos hline, if_pos hline]
    exact ⟨2, .enter .lineComment, ⟨hs, rfl⟩, rfl, rfl⟩
  by_cases hblock : (c == '/' && rest.head? == some '*') = true
  · rw [if_neg hline, if_neg hline, if_pos hblock, if_pos hblock]
    exact ⟨2, .enter .blockComment, ⟨hs, rfl⟩, rfl, rfl⟩
  have hslash : c = '/' → rest.head? ≠ some '/' ∧ rest.head? ≠ some '*' := by
    rintro rfl
    exact ⟨by simpa using hline, by simpa using hblock⟩
  have hwidth : RegexLiteral.width? past c rest = RegexLiteral.width? past' c rest := by
    by_cases hc : c = '/'
    · subst hc
      exact hw (readsCode_iff.2 ⟨hs, hslash, rfl, rfl⟩)
    · simp [RegexLiteral.width?, hc]
  rw [if_neg hline, if_neg hline, if_neg hblock, if_neg hblock, hwidth, ← hx]
  cases hquote : Context.ofQuote? c with
  | some literal => exact ⟨1, .enter literal, ⟨hs, inCode_ofQuote? hquote⟩, rfl, rfl⟩
  | none =>
    cases RegexLiteral.width? past' c rest with
    | some width => exact ⟨width, .stay, trivial, rfl, rfl⟩
    | none =>
      cases hopener : Bracket.ofOpener? c with
      | some b => exact ⟨1, .openBracket b, hs, rfl, rfl⟩
      | none =>
        by_cases hexpr : s.closesExpr c = true
        · have hallowed := hexpr
          simp only [closesExpr, Bool.and_eq_true, beq_iff_eq] at hallowed
          simp only [if_pos hexpr]
          exact ⟨1, .resume, ⟨hallowed.1.2, hallowed.2⟩, rfl, rfl⟩
        · simp only [if_neg hexpr]
          cases hcloser : Bracket.ofCloser? c with
          | some b =>
            refine ⟨1, .closeBracket b, ⟨hs, ?_⟩, rfl, rfl⟩
            rintro rfl hctx hhead
            apply hexpr
            simp [closesExpr, ofCloser?_eq_brace hcloser, hctx, hhead]
          | none => exact ⟨1, .stay, trivial, rfl, rfl⟩

/-- Two steps in a string. -/
theorem stepString_congr (hs : s.inCode = false) (quote c : Char) :
    (s.stepString quote c = .error ⟨.unterminatedString, s.contextStart⟩ ∧
        t.stepString quote c = .error ⟨.unterminatedString, t.contextStart⟩) ∨
      ∃ k a, Action.Allowed s a ∧ ∀ position position',
        s.stepString quote c = .ok (k, a.apply position s) ∧
          t.stepString quote c = .ok (k, a.apply position' t) := by
  unfold stepString
  split
  · exact .inr ⟨2, .stay, trivial, fun _ _ => ⟨rfl, rfl⟩⟩
  split
  · exact .inr ⟨1, .leave, hs, fun _ _ => ⟨rfl, rfl⟩⟩
  split
  · exact .inl ⟨rfl, rfl⟩
  · exact .inr ⟨1, .stay, trivial, fun _ _ => ⟨rfl, rfl⟩⟩

/-- **Two states in the same construct take the same step**, if a curly bracket ends a substitution
in both or in none and what stands in front decides alike about regular expression literals. -/
theorem step_congr (hctx : s.context = t.context) (hx : s.closesExpr c = t.closesExpr c)
    (hw : s.readsCode c rest = true →
      RegexLiteral.width? past c rest = RegexLiteral.width? past' c rest)
    (position position' : Nat) :
    (s.step past c rest position = .error ⟨.unterminatedString, s.contextStart⟩ ∧
        t.step past' c rest position' = .error ⟨.unterminatedString, t.contextStart⟩) ∨
      ∃ k a, Action.Allowed s a ∧ s.step past c rest position = .ok (k, a.apply position s) ∧
        t.step past' c rest position' = .ok (k, a.apply position' t) := by
  by_cases hs : s.inCode = true
  · have ht : t.inCode = true := by
      rw [inCode, ← hctx]
      exact hs
    obtain ⟨k, a, hallowed, hstep, hstep'⟩ := stepCode_congr hs hx hw position position'
    rw [step_of_inCode hs, step_of_inCode ht, hstep, hstep']
    exact .inr ⟨k, a, hallowed, rfl, rfl⟩
  rw [Bool.not_eq_true] at hs
  have hstring : ∀ quote, (s.stepString quote c = .error ⟨.unterminatedString, s.contextStart⟩ ∧
        t.stepString quote c = .error ⟨.unterminatedString, t.contextStart⟩) ∨
      ∃ k a, Action.Allowed s a ∧ s.stepString quote c = .ok (k, a.apply position s) ∧
        t.stepString quote c = .ok (k, a.apply position' t) := by
    intro quote
    rcases stepString_congr (t := t) hs quote c with herror | ⟨k, a, hallowed, hstep⟩
    · exact .inl herror
    · exact .inr ⟨k, a, hallowed, hstep position position'⟩
  unfold step
  rw [← hctx]
  cases hcontext : s.context with
  | normal | templateExpr =>
    rw [inCode, hcontext] at hs
    cases hs
  | lineComment =>
    refine .inr ?_
    simp only [stepLineComment]
    split
    · exact ⟨0, .leave, hs, rfl, rfl⟩
    · exact ⟨_, .stay, trivial, rfl, rfl⟩
  | blockComment =>
    refine .inr ?_
    simp only [stepBlockComment]
    split
    · exact ⟨_, .leave, hs, rfl, rfl⟩
    · exact ⟨_, .stay, trivial, rfl, rfl⟩
  | singleQuote => exact hstring '\''
  | doubleQuote => exact hstring '"'
  | template =>
    refine .inr ?_
    simp only [stepTemplate]
    split
    · exact ⟨2, .stay, trivial, rfl, rfl⟩
    split
    · exact ⟨1, .leave, hs, rfl, rfl⟩
    split
    · exact ⟨2, .substitute, hcontext, rfl, rfl⟩
    · exact ⟨1, .stay, trivial, rfl, rfl⟩

end State

/-! ## What stands in front -/

/-- Behind the two texts `past` and `past'`, given in reverse, every slash of `rest` that begins no
comment is judged alike. -/
def Judged (past past' rest : Text) : Prop :=
  ∀ u r, rest = u.reverse ++ '/' :: r → r.head? ≠ some '/' → r.head? ≠ some '*' →
    RegexLiteral.beginsAfter (u ++ past) = RegexLiteral.beginsAfter (u ++ past')

namespace Judged

variable {past past' rest : Text}

theorem advance (h : Judged past past' rest) (k : Nat) :
    Judged (advancePast past rest k) (advancePast past' rest k) (rest.drop k) := by
  intro u r hrest hline hblock
  have hwhole : rest = (u ++ (rest.take k).reverse).reverse ++ '/' :: r := by
    conv_lhs => rw [← List.take_append_drop k rest, hrest]
    simp
  have hjudged := h _ r hwhole hline hblock
  simpa only [advancePast, List.append_assoc] using hjudged

theorem width?_eq {c : Char} {r : Text} (h : Judged past past' (c :: r)) {s : State}
    (hreads : s.readsCode c r = true) :
    RegexLiteral.width? past c r = RegexLiteral.width? past' c r := by
  by_cases hc : c = '/'
  · subst hc
    obtain ⟨-, hslash, -⟩ := readsCode_iff.1 hreads
    have hjudged := h [] r rfl (hslash rfl).1 (hslash rfl).2
    rw [List.nil_append, List.nil_append] at hjudged
    rw [RegexLiteral.width?, RegexLiteral.width?, hjudged]
  · simp [RegexLiteral.width?, hc]

/-- Texts that end with no identifier differ for a slash only if nothing but a gap stands between
them and the slash. -/
theorem of_gap (hpast : past.head?.any Text.isIdentChar = false)
    (hpast' : past'.head?.any Text.isIdentChar = false)
    (h : ∀ r, rest.dropWhile RegexLiteral.isGap = '/' :: r → r.head? ≠ some '/' →
      r.head? ≠ some '*' →
        RegexLiteral.beginsAfter past = RegexLiteral.beginsAfter past') :
    Judged past past' rest := by
  intro u r hrest hline hblock
  by_cases hu : u.dropWhile RegexLiteral.isGap = []
  · have hall : ∀ a ∈ u, RegexLiteral.isGap a = true := List.dropWhile_eq_nil_iff.1 hu
    have hgap : rest.dropWhile RegexLiteral.isGap = '/' :: r := by
      rw [hrest, List.dropWhile_append_of_pos fun a ha => hall a (List.mem_reverse.1 ha)]
      rfl
    have hskip : ∀ outer, RegexLiteral.beginsAfter (u ++ outer) =
        RegexLiteral.beginsAfter outer := by
      intro outer
      rw [RegexLiteral.beginsAfter, List.dropWhile_append_of_pos hall, ← RegexLiteral.beginsAfter]
    rw [hskip, hskip]
    exact h r hgap hline hblock
  · rw [RegexLiteral.beginsAfter_append hu hpast, RegexLiteral.beginsAfter_append hu hpast']

end Judged

/-! ## Relations that no step breaks -/

/-- A relation of states that says enough to take the same steps, and holds again behind them. -/
structure Bisimulation (R : State → State → Prop) : Prop where
  /-- The states are in the same construct. -/
  context : ∀ {s t}, R s t → s.context = t.context
  /-- A curly bracket ends a substitution in both or in none. -/
  closesExpr : ∀ {s t}, R s t → ∀ c, s.closesExpr c = t.closesExpr c
  /-- An action leads to related states. -/
  apply : ∀ {s t}, R s t → ∀ {a : Action}, a.Allowed s → ∀ position position',
    R (a.apply position s) (a.apply position' t)

theorem Cursor.pass_of_error {s : State} {past : Text} {c : Char} {rest : Text} {position : Nat}
    {f : Fault} (h : s.step past c rest position = .error f) :
    Cursor.pass ⟨s, past, c :: rest, position⟩ = ⟨[], s, some f, c :: rest⟩ := by
  unfold Cursor.pass
  rw [passFrom]
  split
  · rename_i f' hf
    rw [h] at hf
    cases hf
    rfl
  · rename_i hk
    rw [h] at hk
    cases hk

namespace Bisimulation

variable {R : State → State → Prop}

theorem step (hR : Bisimulation R) {s t : State} (h : R s t) {past past' : Text} {c : Char}
    {rest : Text} (hjudged : Judged past past' (c :: rest)) (position position' : Nat) :
    (s.step past c rest position = .error ⟨.unterminatedString, s.contextStart⟩ ∧
        t.step past' c rest position' = .error ⟨.unterminatedString, t.contextStart⟩) ∨
      ∃ k s' t', R s' t' ∧ s.step past c rest position = .ok (k, s') ∧
        t.step past' c rest position' = .ok (k, t') := by
  have hcongr := State.step_congr (hR.context h) (hR.closesExpr h c)
    (fun hreads => hjudged.width?_eq hreads) position position'
  rcases hcongr with herror | ⟨k, a, hallowed, hstep, hstep'⟩
  · exact .inl herror
  · exact .inr ⟨k, _, _, hR.apply h hallowed position position', hstep, hstep'⟩

/-- **Passes from related states end alike**: with the same reason, or with none and in related
states. -/
theorem pass (hR : Bisimulation R) {s t : State} (h : R s t) {past past' rest : Text}
    (hjudged : Judged past past' rest) (position position' : Nat) :
    (passFrom s past rest position).fault.map (·.reason) =
        (passFrom t past' rest position').fault.map (·.reason) ∧
      R (passFrom s past rest position).state (passFrom t past' rest position').state := by
  induction s, past, rest, position using passFrom.induct generalizing t past' position' with
  | case1 s past position =>
    rw [passFrom, passFrom]
    exact ⟨rfl, h⟩
  | case2 s past position c r f hf =>
    rcases hR.step h hjudged position position' with ⟨herror, herror'⟩ | ⟨k, s', t', -, hstep, -⟩
    · have hs := Cursor.pass_of_error herror
      have ht := Cursor.pass_of_error herror'
      unfold Cursor.pass at hs ht
      rw [hs, ht]
      exact ⟨rfl, h⟩
    · rw [hf] at hstep
      cases hstep
  | case3 s past position c r k s' hstep ih =>
    rcases hR.step h hjudged position position' with ⟨herror, -⟩ | ⟨k', s'', t', hR', hs, ht⟩
    · rw [hstep] at herror
      cases herror
    · rw [hstep] at hs
      cases hs
      obtain ⟨hfault, hstate⟩ := (Next.step hstep).pass_eq
      obtain ⟨hfault', hstate'⟩ := (Next.step ht).pass_eq
      unfold Cursor.pass at hfault hstate hfault' hstate'
      rw [hfault, hstate, hfault', hstate']
      exact ih hR' (hjudged.advance k) _

/-- What is visited at the first character. -/
theorem visit?_eq (hR : Bisimulation R) {s t : State} (h : R s t) {past past' : Text} {c : Char}
    {rest : Text} (hjudged : Judged past past' (c :: rest)) (position position' : Nat) :
    (visit? ⟨s, past, c :: rest, position⟩).map (fun v => (v.index + position', v.char)) =
      (visit? ⟨t, past', c :: rest, position'⟩).map (fun v => (v.index + position, v.char)) := by
  have hreads : s.readsCode c rest = t.readsCode c rest := by
    rw [State.readsCode, State.readsCode, State.inCode, State.inCode, hR.context h,
      hR.closesExpr h c]
  simp only [visit?, ← hreads]
  by_cases hs : s.readsCode c rest = true
  · rw [hs, hjudged.width?_eq hs]
    cases RegexLiteral.width? past' c rest with
    | none => simp [Nat.add_comm]
    | some k => simp
  · simp [hs]

/-- **Walks from related states visit the same characters.** -/
theorem visits (hR : Bisimulation R) {s t : State} (h : R s t) {past past' rest : Text}
    (hjudged : Judged past past' rest) (position position' : Nat) :
    (visitsFrom s past rest position).map (fun v => (v.index + position', v.char)) =
      (visitsFrom t past' rest position').map (fun v => (v.index + position, v.char)) := by
  induction s, past, rest, position using passFrom.induct generalizing t past' position' with
  | case1 s past position => simp [visitsFrom]
  | case2 s past position c r f hf =>
    rcases hR.step h hjudged position position' with ⟨herror, herror'⟩ | ⟨k, s', t', -, hstep, -⟩
    · rw [visitsFrom_of_error herror, visitsFrom_of_error herror']
      rfl
    · rw [hf] at hstep
      cases hstep
  | case3 s past position c r k s' hstep ih =>
    rcases hR.step h hjudged position position' with ⟨herror, -⟩ | ⟨k', s'', t', hR', hs, ht⟩
    · rw [hstep] at herror
      cases herror
    · rw [hstep] at hs
      cases hs
      -- both walks go on `k` characters further, so the offsets differ by as much as before
      have hothers := ih hR' (hjudged.advance k) (position' + k)
      have hback : ∀ {vs ws : List Visit} {i j : Nat},
          vs.map (fun v => (v.index + (i + k), v.char)) =
            ws.map (fun v => (v.index + (j + k), v.char)) →
          vs.map (fun v => (v.index + i, v.char)) = ws.map (fun v => (v.index + j, v.char)) := by
        intro vs ws i j heq
        have hsub := congrArg (List.map fun p : Nat × Char => (p.1 - k, p.2)) heq
        simpa only [List.map_map, Function.comp_def, ← Nat.add_assoc, Nat.add_sub_cancel]
          using hsub
      rw [visitsFrom_cons hstep, visitsFrom_cons ht, List.map_append, List.map_append,
        hback hothers]
      have hhere := congrArg Option.toList (hR.visit?_eq h hjudged position position')
      rw [Option.toList_map, Option.toList_map] at hhere
      rw [hhere]

end Bisimulation

end ModuleSurface.Lexing

import ModuleSurface.Proofs.Lexing.Continuation
import ModuleSurface.Proofs.Statement.Lockstep
import ModuleSurface.Proofs.Text.Search

/-!
# Comments in code

A comment in code leads back to the state in front of it (`Comment.exists_run`), so a pass goes on
behind it as behind a blank.  What follows is read alike, offsets apart: `SameShape` is the likeness
of states that holds from there on, and `Outcome` what two such passes have in common at the end.
-/

namespace ModuleSurface.Lexing

open Cursor

/-! ## States up to offsets -/

/-- The states are the same but for the offsets they hold and the closers that were ignored. -/
structure SameShape (s t : State) : Prop where
  /-- The constructs. -/
  contexts : s.contexts = t.contexts
  /-- The open curly brackets. -/
  braces : s.braces = t.braces
  /-- The open square brackets. -/
  squares : s.squares = t.squares
  /-- The open round brackets. -/
  rounds : s.rounds = t.rounds
  /-- The curly brackets open at the start of each substitution. -/
  exprDepths : s.exprDepths = t.exprDepths
  /-- The kinds of the open brackets. -/
  opened : s.opened.map (·.1) = t.opened.map (·.1)

namespace SameShape

variable {s t : State}

theorem refl (s : State) : SameShape s s :=
  ⟨rfl, rfl, rfl, rfl, rfl, rfl⟩

theorem context (h : SameShape s t) : s.context = t.context :=
  (List.cons.inj h.contexts).1

theorem depthOf (h : SameShape s t) (b : Bracket) : s.depthOf b = t.depthOf b := by
  cases b with
  | brace => exact h.braces
  | square => exact h.squares
  | round => exact h.rounds

theorem enter (h : SameShape s t) (context : Context) (position position' : Nat) :
    SameShape (s.enter context position) (t.enter context position') :=
  ⟨congrArg (context :: ·) h.contexts, h.braces, h.squares, h.rounds, h.exprDepths, h.opened⟩

theorem leave (h : SameShape s t) : SameShape s.leave t.leave := by
  have henclosing := (List.cons.inj h.contexts).2
  obtain ⟨-, hbraces, hsquares, hrounds, hexpr, hopened⟩ := h
  unfold State.leave
  cases hs : s.enclosing with
  | nil =>
    have ht : t.enclosing = [] := by
      simpa [hs] using henclosing.symm
    rw [ht]
    exact ⟨rfl, hbraces, hsquares, hrounds, hexpr, hopened⟩
  | cons e outer =>
    rw [hs, List.map_cons] at henclosing
    cases ht : t.enclosing with
    | nil =>
      rw [ht] at henclosing
      cases henclosing
    | cons e' outer' =>
      rw [ht, List.map_cons] at henclosing
      exact ⟨henclosing, hbraces, hsquares, hrounds, hexpr, hopened⟩

theorem openBracket (h : SameShape s t) (b : Bracket) (position position' : Nat) :
    SameShape (s.openBracket b position) (t.openBracket b position') := by
  have hopened : (s.openBracket b position).opened.map (·.1) =
      (t.openBracket b position').opened.map (·.1) := by
    simp [h.opened]
  obtain ⟨hcontexts, hbraces, hsquares, hrounds, hexpr, -⟩ := h
  cases b with
  | brace => exact ⟨hcontexts, congrArg (· + 1) hbraces, hsquares, hrounds, hexpr, hopened⟩
  | square => exact ⟨hcontexts, hbraces, congrArg (· + 1) hsquares, hrounds, hexpr, hopened⟩
  | round => exact ⟨hcontexts, hbraces, hsquares, congrArg (· + 1) hrounds, hexpr, hopened⟩

theorem closeBracket (h : SameShape s t) (b : Bracket) :
    SameShape (s.closeBracket b) (t.closeBracket b) := by
  by_cases hb : s.depthOf b = 0
  · rw [State.closeBracket_of_depthOf hb, State.closeBracket_of_depthOf (h.depthOf b ▸ hb)]
    exact ⟨h.contexts, h.braces, h.squares, h.rounds, h.exprDepths, h.opened⟩
  · have ht : t.depthOf b ≠ 0 := by rwa [← h.depthOf b]
    have herase : ∀ opened : List (Bracket × Nat),
        (opened.eraseP (·.1 == b)).map (·.1) = (opened.map (·.1)).eraseP (· == b) := by
      intro opened
      rw [List.eraseP_map]
      rfl
    have hopened : (s.closeBracket b).opened.map (·.1) = (t.closeBracket b).opened.map (·.1) := by
      rw [State.opened_closeBracket hb, State.opened_closeBracket ht, herase, herase, h.opened]
    have hdepth : ∀ b', (s.closeBracket b).depthOf b' = (t.closeBracket b).depthOf b' := by
      intro b'
      rw [State.depthOf_closeBracket hb, State.depthOf_closeBracket ht, h.depthOf]
    refine ⟨?_, hdepth .brace, hdepth .square, hdepth .round, ?_, hopened⟩
    · simp [h.contexts]
    · simp [h.exprDepths]

/-- No step breaks the likeness. -/
theorem bisimulation : Bisimulation SameShape where
  context h := h.context
  closesExpr h c := by rw [State.closesExpr, State.closesExpr, h.context, h.exprDepths, h.braces]
  apply {s t} h a _ position position' := by
    cases a with
    | stay => exact h
    | enter context => exact h.enter context _ _
    | substitute =>
      have hdepths : SameShape { s with exprDepths := s.braces :: s.exprDepths }
          { t with exprDepths := t.braces :: t.exprDepths } :=
        ⟨h.contexts, h.braces, h.squares, h.rounds,
          congrArg₂ List.cons h.braces h.exprDepths, h.opened⟩
      exact hdepths.enter _ _ _
    | leave => exact h.leave
    | resume =>
      have hdepths : SameShape { s with exprDepths := s.exprDepths.tail }
          { t with exprDepths := t.exprDepths.tail } :=
        ⟨h.contexts, h.braces, h.squares, h.rounds, congrArg List.tail h.exprDepths, h.opened⟩
      exact hdepths.leave
    | openBracket b => exact h.openBracket b _ _
    | closeBracket b => exact h.closeBracket b

/-- What is still open at the end is open for the same reason. -/
theorem reason_finish (h : SameShape s t) :
    s.finish.2.map (·.reason) = t.finish.2.map (·.reason) := by
  have hopened : ∀ {s t : State}, SameShape s t →
      (s.opened.head?.map fun e => (⟨.unclosed e.1, e.2⟩ : Fault)).map (·.reason) =
        (t.opened.head?.map fun e => (⟨.unclosed e.1, e.2⟩ : Fault)).map (·.reason) := by
    intro s t h
    have hhead := congrArg (fun l => l.head?.map Reason.unclosed) h.opened
    simpa [List.head?_map, Option.map_map, Function.comp_def] using hhead
  by_cases hline : s.context = .lineComment
  · have hleave := h.leave
    simp only [State.finish, ← h.context, hline, if_true, ← hleave.context]
    cases hctx : s.leave.context with
    | normal | lineComment => exact hopened hleave
    | _ => rfl
  · simp only [State.finish, ← h.context, if_neg hline]
    cases hctx : s.context with
    | normal | lineComment => exact hopened h
    | _ => rfl

end SameShape

/-! ## Outcomes -/

/-- What a pass over a text comes to, offsets apart. -/
structure Outcome where
  /-- The construct the pass ended in. -/
  context : Context
  /-- The open curly brackets. -/
  braces : Nat
  /-- The open square brackets. -/
  squares : Nat
  /-- The open round brackets. -/
  rounds : Nat
  /-- Why the pass ended before the text did. -/
  fault : Option Reason
  /-- What is wrong with the text, what is still open at its end included. -/
  verdict : Option Reason
  deriving DecidableEq, Repr

/-- The outcome of a pass. -/
def Pass.outcome (p : Pass) : Outcome where
  context := p.state.context
  braces := p.state.braces
  squares := p.state.squares
  rounds := p.state.rounds
  fault := p.fault.map (·.reason)
  verdict := p.verdict.map (·.reason)

/-- Passes from like states have the same outcome. -/
theorem outcome_of_sameShape {s t : State} (h : SameShape s t) {past past' rest : Text}
    (hjudged : Judged past past' rest) (position position' : Nat) :
    (passFrom s past rest position).outcome = (passFrom t past' rest position').outcome := by
  obtain ⟨hfault, hstate⟩ := SameShape.bisimulation.pass h hjudged position position'
  have hverdict : (passFrom s past rest position).verdict.map (·.reason) =
      (passFrom t past' rest position').verdict.map (·.reason) := by
    have hor : ∀ p : Pass, p.verdict.map (·.reason) =
        (p.fault.map (·.reason)).or (p.state.finish.2.map (·.reason)) := by
      intro p
      rw [Pass.verdict]
      cases p.fault <;> rfl
    rw [hor, hor, hfault, hstate.reason_finish]
  simp only [Pass.outcome, hfault, hverdict, hstate.context, hstate.braces, hstate.squares,
    hstate.rounds]

theorem Cursor.Run.outcome_eq {p q : Cursor} {ps : List Cursor} (h : Run p ps q) :
    p.pass.outcome = q.pass.outcome := by
  obtain ⟨hfault, hstate⟩ := h.pass_eq
  simp only [Pass.outcome, Pass.verdict, hfault, hstate]

/-! ## Comments -/

/-- A comment. -/
inductive Comment where
  /-- A comment between its two delimiters, the second of which is not in its body. -/
  | block (body : Text) (closed : Text.containsText body "*/".toList = false)
  /-- A comment to the end of its line. -/
  | line (body : Text) (within : '\n' ∉ body)

namespace Comment

/-- The comment as written, up to and with the newline that ends it if it is a line comment. -/
def text : Comment → Text
  | block body _ => "/*".toList ++ body ++ "*/".toList
  | line body _ => "//".toList ++ body ++ ['\n']

/-- What a comment can be replaced by. -/
def blank : Comment → Char
  | block .. => ' '
  | line .. => '\n'

theorem exists_text (m : Comment) : ∃ t, m.text = '/' :: t := by
  cases m <;> exact ⟨_, rfl⟩

theorem isGap_blank (m : Comment) : RegexLiteral.isGap m.blank = true := by
  cases m <;> rfl

/-- The closing delimiter of a block comment is the first one behind its body. -/
theorem find?_closing {body : Text} (h : Text.containsText body "*/".toList = false) (B : Text) :
    Text.find? (body ++ ("*/".toList ++ B)) "*/".toList = some body.length := by
  obtain ⟨n, hn, hfind⟩ := Text.findFrom_le "*/".toList body B 0
  rw [Nat.zero_add] at hn
  have hfind' : Text.find? (body ++ ("*/".toList ++ B)) "*/".toList = some n := hfind
  rw [hfind']
  by_cases hlt : n + 2 ≤ body.length
  · -- it would stand in the body
    have hbody := Text.findFrom_of_append hfind (by simpa using hlt)
    rw [Text.containsText, Text.find?, hbody] at h
    cases h
  · obtain ⟨a, b, heq, ha⟩ := Text.eq_of_findFrom hfind
    rw [Nat.zero_add] at ha
    by_contra hne
    -- it would begin with the last character of the body, but a star follows that
    have hbody : body.length = a.length + 1 := by
      have hne' : n ≠ body.length := fun h => hne (congrArg some h)
      omega
    have hleft : (body ++ ("*/".toList ++ B))[body.length]? = some '*' := by
      simp
    have hright : (a ++ ("*/".toList ++ b))[a.length + 1]? = some '/' := by
      simp
    rw [← hbody, ← heq, hleft] at hright
    cases hright

/-- A block comment is read in two steps, and between them the pass is in it. -/
theorem exists_steps {body : Text} (closed : Text.containsText body "*/".toList = false) {s : State}
    (hs : s.inCode = true) (past B : Text) (position : Nat) :
    ∃ r : Cursor, r.state.context = .blockComment ∧
      Next ⟨s, past, (block body closed).text ++ B, position⟩ r ∧
      Next r ⟨s, (block body closed).text.reverse ++ past, B,
        position + (block body closed).text.length⟩ := by
  obtain ⟨r, hr, hopen, hclose⟩ := exists_block hs past _ position _ (find?_closing closed B)
  have htake : (body ++ ("*/".toList ++ B)).take (body.length + 2) = body ++ "*/".toList := by
    rw [← List.append_assoc]
    exact List.take_left' (by simp)
  have hdrop : (body ++ ("*/".toList ++ B)).drop (body.length + 2) = B := by
    rw [← List.append_assoc]
    exact List.drop_left' (by simp)
  rw [htake, hdrop] at hclose
  have htext : (block body closed).text ++ B =
      '/' :: '*' :: (body ++ ("*/".toList ++ B)) := by
    simp [text]
  have hpast : (block body closed).text.reverse ++ past =
      (body ++ "*/".toList).reverse ++ '*' :: '/' :: past := by
    simp [text]
  have hlength : (block body closed).text.length = 2 + (body.length + 2) := by
    simp [text]
    omega
  rw [htext, hpast, hlength, ← Nat.add_assoc]
  exact ⟨r, hr, hopen, hclose⟩

/-- **A comment leads back to the state in front of it.** -/
theorem exists_run (m : Comment) {s : State} (hs : s.inCode = true) (past B : Text)
    (position : Nat) :
    ∃ ps, Run ⟨s, past, m.text ++ B, position⟩ ps
      ⟨s, m.text.reverse ++ past, B, position + m.text.length⟩ := by
  cases m with
  | block body closed =>
    obtain ⟨r, -, hopen, hclose⟩ := exists_steps closed hs past B position
    exact ⟨_, .cons hopen (.single hclose)⟩
  | line body hbody =>
    obtain ⟨ps, hrun⟩ := Run.line_newline hs past body B position hbody
    have hnewline := Next.step
      (State.step_of_plain hs (by decide : Plain '\n') (body.reverse ++ '/' :: '/' :: past) B
        (position + 2 + body.length))
    have htext : (line body hbody).text ++ B = '/' :: '/' :: (body ++ '\n' :: B) := by
      simp [text]
    have hpast : (line body hbody).text.reverse ++ past =
        '\n' :: (body.reverse ++ '/' :: '/' :: past) := by
      simp [text]
    have hlength : (line body hbody).text.length = 2 + body.length + 1 := by
      simp [text]
      omega
    rw [htext, hpast, hlength, ← Nat.add_assoc, ← Nat.add_assoc]
    exact ⟨_, hrun.append (.single hnewline)⟩

/-- So does what it can be replaced by. -/
theorem exists_run_blank (m : Comment) {s : State} (hs : s.inCode = true) (past B : Text)
    (position : Nat) :
    ∃ ps, Run ⟨s, past, m.blank :: B, position⟩ ps ⟨s, m.blank :: past, B, position + 1⟩ := by
  have hplain : Plain m.blank := by
    cases m with
    | block => exact (by decide : Plain ' ')
    | line => exact (by decide : Plain '\n')
  exact ⟨_, .single (.step (State.step_of_plain hs hplain past B position))⟩

end Comment

/-! ## Transparency -/

/-- Every slash in the code of the text that may begin a regular expression literal and is read as
one character stays so, whatever follows the text: the line it stands in ends in the text. -/
def Settled (t : Text) : Prop :=
  ∀ v ∈ visits t, v.char = '/' → RegexLiteral.beginsAfter v.past = true →
    ∀ more, RegexLiteral.bodyWidth? false (v.rest ++ more) = none

/-- If `B` begins with a slash that begins no comment, gaps in front of it apart, then that slash is
judged behind the comment as it is in its place. -/
def Comment.Unseen (m : Comment) (A B : Text) : Prop :=
  ∀ r, B.dropWhile RegexLiteral.isGap = '/' :: r → r.head? ≠ some '/' → r.head? ≠ some '*' →
    RegexLiteral.beginsAfter (m.text.reverse ++ A.reverse) = RegexLiteral.beginsAfter A.reverse

/-- What follows a settled text that does not end with a slash changes no unit of it, if it begins
with no identifier. -/
theorem Settled.keepsUnit {A : Text} (h : Settled A) (hlast : A.getLast? ≠ some '/') {more : Text}
    (hmore : more.head?.any Text.isIdentChar = false) {r : Cursor} (hplaced : Placed A r)
    (hvisit : ∀ v, r.visit? = some v → v ∈ visits A) (hcode : r.state.inCode = true) {c : Char}
    {u : Text} (hrest : r.rest = c :: u) : KeepsUnit r.past c u more := by
  obtain ⟨s, past, rest, position⟩ := r
  subst hrest
  rintro rfl
  refine ⟨?_, ?_⟩
  · rintro rfl
    refine absurd ?_ hlast
    rw [← hplaced.text_eq]
    simp
  · intro hline hblock
    have hreads : s.readsCode '/' u = true :=
      readsCode_iff.2 ⟨hcode, fun _ => ⟨hline, hblock⟩, rfl, rfl⟩
    cases hw : RegexLiteral.width? past '/' u with
    | some k =>
      simp only [RegexLiteral.width?] at hw ⊢
      split at hw
      · rename_i hbegins
        obtain ⟨n, hn, rfl⟩ := Option.map_eq_some_iff.1 hw
        rw [if_pos hbegins, RegexLiteral.bodyWidth?_append_of_some hn hmore]
        rfl
      · cases hw
    | none =>
      by_cases hbegins : RegexLiteral.beginsAfter past = true
      · have hmem := hvisit _ (visit?_of_readsCode hreads hw position)
        simp [RegexLiteral.width?, h _ hmem rfl hbegins more]
      · simp [RegexLiteral.width?, hbegins]

end ModuleSurface.Lexing
